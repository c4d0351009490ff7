import Xv6.Vm.Table

/-! # User memory

The functions of `kernel/vm.c` that create, share, copy and release user pages, and the
copy-on-write branch of `usertrap`.
-/

namespace Xv6.Vm
set_option autoImplicit false
open Kmem

def uvmdealloc (R : Ram) (oldsz newsz : ℕ) (k : Kmem) (pt : PageTable) :
    Outcome Failure (ℕ × Kmem × PageTable) :=
  if newsz ≥ oldsz then pure (oldsz, k, pt)
  else if pgroundup newsz < pgroundup oldsz then do
    let (k, pt) ← uvmunmap R true (pgroundup oldsz - pgroundup newsz) (pgroundup newsz) k pt
    pure (newsz, k, pt)
  else pure (newsz, k, pt)

/-- The bits of the `xperm` argument of `uvmalloc`. -/
structure Xperm where
  w : Bool
  x : Bool
  deriving DecidableEq

def userPerm (xperm : Xperm) : Flags :=
  { Flags.none with r := true, u := true, w := xperm.w, x := xperm.x }

/-- The loop of `uvmalloc` at page `a`, with `n` pages to go; `start` is the first page of the
call, to which a failure goes back. -/
def uvmallocLoop (R : Ram) (start : ℕ) (xperm : Xperm) : (n a : ℕ) → Kmem → PageTable →
    Outcome Failure (Bool × Kmem × PageTable)
  | 0, _, k, pt => pure (true, k, pt)
  | n + 1, a, k, pt =>
    match kalloc k with
    | (none, k) => do
      let (_, k, pt) ← uvmdealloc R (a * PGSIZE) (start * PGSIZE) k pt
      pure (false, k, pt)
    | (some mem, k) => do
      let (ok, k, pt) ← mappages 1 a mem (userPerm xperm) (k.memset mem 0) pt
      if ok then uvmallocLoop R start xperm n (a + 1) k pt
      else do
        let k ← kfree R mem k
        let (_, k, pt) ← uvmdealloc R (a * PGSIZE) (start * PGSIZE) k pt
        pure (false, k, pt)

/-- `uvmalloc`; the result has the new size, or 0. -/
def uvmalloc (R : Ram) (oldsz newsz : ℕ) (xperm : Xperm) (k : Kmem) (pt : PageTable) :
    Outcome Failure (ℕ × Kmem × PageTable) :=
  if newsz < oldsz then pure (oldsz, k, pt)
  else do
    let start := pgroundup oldsz
    let (ok, k, pt) ← uvmallocLoop R start xperm (pgroundup newsz - start) start k pt
    pure (if ok then newsz else 0, k, pt)

def Flags.share (f : Flags) : Flags := { f with cow := true, w := false }

def uvmcopyLoop (R : Ram) : (n i : ℕ) → Kmem → PageTable → PageTable →
    Outcome Failure (Bool × Kmem × PageTable × PageTable)
  | 0, _, k, old, new => pure (true, k, old, new)
  | n + 1, i, k, old, new => do
    let (found, k, old) ← walk false i k old
    let e := old.pte i
    if !found then .fail (.panic "uvmcopy: pte should exist")
    else if !e.flags.v then .fail (.panic "uvmcopy: page not present")
    else do
      let old := old.setPte i { e with flags := e.flags.share }
      let (ok, k, new) ← mappages 1 i e.ppn { e.flags.share with v := false } k new
      if ok then uvmcopyLoop R n (i + 1) (k.refInc e.ppn) old new
      else do
        let (k, new) ← uvmunmap R true i 0 k new
        pure (false, k, old, new)

def uvmcopy (R : Ram) (sz : ℕ) (k : Kmem) (old new : PageTable) :
    Outcome Failure (Bool × Kmem × PageTable × PageTable) :=
  uvmcopyLoop R (pgroundup sz) 0 k old new

def uvmfirst (src : List UInt8) (k : Kmem) (pt : PageTable) :
    Outcome Failure (Kmem × PageTable) :=
  if src.length ≥ PGSIZE then .fail (.panic "uvmfirst: more than a page")
  else
    match kalloc k with
    | (none, _) => .fail .fault
    | (some mem, k) => do
      let (_, k, pt) ← mappages 1 0 mem
        { Flags.none with r := true, w := true, x := true, u := true } (k.memset mem 0) pt
      pure (k.write mem 0 src, pt)

def uvmclear (v : ℕ) (k : Kmem) (pt : PageTable) : Outcome Failure PageTable := do
  let (found, _, pt) ← walk false v k pt
  if !found then .fail (.panic "uvmclear")
  else
    let e := pt.pte v
    pure (pt.setPte v { e with flags := { e.flags with u := false } })

/-! ## Copy on write -/

/-- The literal permissions that both copy-on-write paths give to the new page. -/
def cowPerm : Flags := { Flags.none with r := true, w := true, x := true, u := true }

/-- Replace the page `pa` of entry `v` by a copy: what `usertrap` and `copyout` have in common. -/
def cowCopy (R : Ram) (v : ℕ) (pa : Ppn) (k : Kmem) (pt : PageTable) :
    Outcome Failure (Bool × Kmem × PageTable) :=
  match kalloc k with
  | (none, _) => .fail .fault
  | (some mem, k) => do
    let (ok, k, pt) ← mappages 1 v mem cowPerm (k.copyPage mem pa) pt
    if ok then do
      let k ← kfree R pa k
      pure (true, k, pt)
    else pure (false, k, pt)

/-- The store-fault branch of `usertrap`; the result tells whether the process goes on or is
marked killed. -/
def storeFault (R : Ram) (v : ℕ) (k : Kmem) (pt : PageTable) :
    Outcome Failure (Bool × Kmem × PageTable) := do
  let (found, k, pt) ← walk false v k pt
  if !found then .fail .fault
  else if !(pt.pte v).flags.cow then pure (false, k, pt)
  else cowCopy R v (pt.pte v).ppn k pt

def PageTable.storable (pt : PageTable) (v : ℕ) : Bool :=
  decide (v < MAXVPN) && pt.reaches v && (pt.pte v).flags.v && (pt.pte v).flags.u &&
    (pt.pte v).flags.w

/-- A user store of byte `b` at address `va`: if the hardware refuses it, `usertrap` runs and the
instruction is executed again. The result tells whether the store has been done. -/
def userStore (R : Ram) (va : ℕ) (b : UInt8) (k : Kmem) (pt : PageTable) :
    Outcome Failure (Bool × Kmem × PageTable) :=
  let v := va / PGSIZE
  let off := va % PGSIZE
  if pt.storable v then pure (true, k.write (pt.pte v).ppn off [b], pt)
  else do
    let (ok, k, pt) ← storeFault R v k pt
    if ok && pt.storable v then pure (true, k.write (pt.pte v).ppn off [b], pt)
    else pure (false, k, pt)

def PageTable.loadable (pt : PageTable) (v : ℕ) : Bool :=
  decide (v < MAXVPN) && pt.reaches v && (pt.pte v).flags.v && (pt.pte v).flags.u &&
    (pt.pte v).flags.r

/-- The byte that a user load at address `va` returns, if it does not fault. -/
def userLoad (k : Kmem) (pt : PageTable) (va : ℕ) : Option UInt8 :=
  if pt.loadable (va / PGSIZE) then some ((k.data (pt.pte (va / PGSIZE)).ppn).byteAt va) else none

def copyinLoop (k : Kmem) (pt : PageTable) : (fuel srcva len : ℕ) → Option (List UInt8)
  | 0, _, _ => some []
  | fuel + 1, srcva, len =>
    if len = 0 then some []
    else
      let v := srcva / PGSIZE
      let off := srcva % PGSIZE
      let n := min (PGSIZE - off) len
      match walkaddr pt v with
      | none => none
      | some pa0 =>
        (copyinLoop k pt fuel ((v + 1) * PGSIZE) (len - n)).map ((k.data pa0).bytes off n ++ ·)

def copyin (k : Kmem) (pt : PageTable) (srcva len : ℕ) : Option (List UInt8) :=
  copyinLoop k pt len srcva len

/-- The inner loop of `copyinstr` over the `n` bytes at `p`: the bytes that it writes to `dst`, and
`got_null`. -/
def copyChars : List UInt8 → List UInt8 × Bool
  | [] => ([], false)
  | c :: cs =>
    if c = 0 then ([0], true)
    else
      let (out, gotNull) := copyChars cs
      (c :: out, gotNull)

/-- The outer loop of `copyinstr`. The result is `none` if `fuel` rounds were not enough, and
otherwise has whether 0 is returned and the bytes that were written to `dst`. -/
def copyinstrLoop (k : Kmem) (pt : PageTable) : (fuel srcva max : ℕ) → Option (Bool × List UInt8)
  | 0, _, _ => none
  | fuel + 1, srcva, max =>
    if max = 0 then some (false, [])
    else
      let v := srcva / PGSIZE
      let off := srcva % PGSIZE
      let n := min (PGSIZE - off) max
      match walkaddr pt v with
      | none => some (false, [])
      | some pa0 =>
        let (out, gotNull) := copyChars ((k.data pa0).bytes off n)
        if gotNull then some (true, out)
        else
          (copyinstrLoop k pt fuel ((v + 1) * PGSIZE) (max - n)).map fun (ok, rest) =>
            (ok, out ++ rest)

/-- `copyinstr`; every round but the last uses up at least one of the `max` bytes. -/
def copyinstr (k : Kmem) (pt : PageTable) (srcva max : ℕ) : Option (Bool × List UInt8) :=
  copyinstrLoop k pt (max + 1) srcva max

def copyoutPage (R : Ram) (v off : ℕ) (src : List UInt8) (k : Kmem) (pt : PageTable) :
    Outcome Failure (Bool × Kmem × PageTable) :=
  if MAXVPN ≤ v then pure (false, k, pt)
  else do
    let pa0 := walkaddr pt v
    let (found, k, pt) ← walk false v k pt
    if !found then .fail .fault
    else do
      let (ok, k, pt) ←
        if (pt.pte v).flags.cow then
          match pa0 with
          | none => .fail .fault
          | some pa0 => cowCopy R v pa0 k pt
        else pure (true, k, pt)
      if !ok then pure (false, k, pt)
      else
        match walkaddr pt v with
        | none => pure (false, k, pt)
        | some pa0 => pure (true, k.write pa0 off src, pt)

def copyoutLoop (R : Ram) : (fuel dstva : ℕ) → List UInt8 → Kmem → PageTable →
    Outcome Failure (Bool × Kmem × PageTable)
  | 0, _, _, k, pt => pure (true, k, pt)
  | fuel + 1, dstva, src, k, pt =>
    if src = [] then pure (true, k, pt)
    else do
      let v := dstva / PGSIZE
      let off := dstva % PGSIZE
      let n := min (PGSIZE - off) src.length
      let (ok, k, pt) ← copyoutPage R v off (src.take n) k pt
      if ok then copyoutLoop R fuel ((v + 1) * PGSIZE) (src.drop n) k pt
      else pure (false, k, pt)

def copyout (R : Ram) (dstva : ℕ) (src : List UInt8) (k : Kmem) (pt : PageTable) :
    Outcome Failure (Bool × Kmem × PageTable) :=
  copyoutLoop R src.length dstva src k pt

end Xv6.Vm
