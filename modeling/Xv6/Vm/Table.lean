import Xv6.Vm.Mem

/-! # Walking and changing a page table

`walk`, `mappages`, `uvmunmap`, `freewalk` and their callers in `kernel/vm.c`, on page numbers.
Dereferencing the null pointer that `walk` may return is a fault.
-/

namespace Xv6.Vm
set_option autoImplicit false
open Kmem

/-- A new level-1 table: its 512 entries are zero. -/
def PageTable.addLevel1 (pt : PageTable) (i : ℕ) (pg : Ppn) : PageTable :=
  { pt with
    level1 := Function.update pt.level1 i (some pg)
    level0 := fun j => if j / NPTE = i then none else pt.level0 j }

/-- A new level-0 table: its 512 entries are zero. -/
def PageTable.addLevel0 (pt : PageTable) (j : ℕ) (pg : Ppn) : PageTable :=
  { pt with
    level0 := Function.update pt.level0 j (some pg)
    pte := fun v => if v / NPTE = j then .zero else pt.pte v }

def walk1 (alloc : Bool) (v : ℕ) (k : Kmem) (pt : PageTable) : Bool × Kmem × PageTable :=
  match pt.level1 (v / NPTE / NPTE) with
  | some _ => (true, k, pt)
  | none =>
    if alloc then
      match kalloc k with
      | (none, k) => (false, k, pt)
      | (some pg, k) => (true, k, pt.addLevel1 (v / NPTE / NPTE) pg)
    else (false, k, pt)

def walk0 (alloc : Bool) (v : ℕ) (k : Kmem) (pt : PageTable) : Bool × Kmem × PageTable :=
  match pt.level0 (v / NPTE) with
  | some _ => (true, k, pt)
  | none =>
    if alloc then
      match kalloc k with
      | (none, k) => (false, k, pt)
      | (some pg, k) => (true, k, pt.addLevel0 (v / NPTE) pg)
    else (false, k, pt)

/-- `walk`; the result tells whether it is a pointer to the entry of `v` or null. -/
def walk (alloc : Bool) (v : ℕ) (k : Kmem) (pt : PageTable) :
    Outcome Failure (Bool × Kmem × PageTable) :=
  if MAXVPN ≤ v then .fail (.panic "walk")
  else
    match walk1 alloc v k pt with
    | (false, k, pt) => pure (false, k, pt)
    | (true, k, pt) => pure (walk0 alloc v k pt)

/-- `walkaddr`; 0 stands for "not mapped", whatever it comes from. -/
def walkaddr (pt : PageTable) (v : ℕ) : Option Ppn :=
  if MAXVPN ≤ v then none
  else if pt.reaches v && (pt.pte v).flags.v && (pt.pte v).flags.u then
    if (pt.pte v).ppn = 0 then none else some (pt.pte v).ppn
  else none

def mapPage (v : ℕ) (pa : Ppn) (perm : Flags) (k : Kmem) (pt : PageTable) :
    Outcome Failure (Bool × Kmem × PageTable) := do
  let (found, k, pt) ← walk true v k pt
  if !found then pure (false, k, pt)
  else if (pt.pte v).flags.v && !(pt.pte v).flags.cow then .fail (.panic "mappages: remap")
  else pure (true, k, pt.setPte v ⟨pa, { perm with v := true }⟩)

def mappages : (n v : ℕ) → Ppn → Flags → Kmem → PageTable →
    Outcome Failure (Bool × Kmem × PageTable)
  | 0, _, _, _, _, _ => .fail (.panic "mappages: size")
  | 1, v, pa, perm, k, pt => mapPage v pa perm k pt
  | n + 2, v, pa, perm, k, pt => do
    let (ok, k, pt) ← mapPage v pa perm k pt
    if !ok then pure (false, k, pt) else mappages (n + 1) (v + 1) (pa + 1) perm k pt

def uvmunmap (R : Ram) (doFree : Bool) : (n v : ℕ) → Kmem → PageTable →
    Outcome Failure (Kmem × PageTable)
  | 0, _, k, pt => pure (k, pt)
  | n + 1, v, k, pt => do
    let (found, k, pt) ← walk false v k pt
    let e := pt.pte v
    if !found then .fail (.panic "uvmunmap: walk")
    else if !e.flags.v then .fail (.panic "uvmunmap: not mapped")
    else if e.flags = { Flags.none with v := true } then .fail (.panic "uvmunmap: not a leaf")
    else do
      let k ← if doFree then kfree R e.ppn k else pure k
      uvmunmap R doFree n (v + 1) k (pt.setPte v .zero)

def freeLevel0 (R : Ram) (pt : PageTable) (k : Kmem) (j : ℕ) : Outcome Failure Kmem :=
  match pt.level0 j with
  | none => pure k
  | some pg =>
    if (List.range NPTE).any fun i => (pt.pte (NPTE * j + i)).flags.v then
      .fail (.panic "freewalk: leaf")
    else kfree R pg k

def freeLevel1 (R : Ram) (pt : PageTable) (k : Kmem) (i : ℕ) : Outcome Failure Kmem :=
  match pt.level1 i with
  | none => pure k
  | some pg => do
    let k ← (List.range' (NPTE * i) NPTE).foldlM (freeLevel0 R pt) k
    kfree R pg k

def freewalk (R : Ram) (pt : PageTable) (k : Kmem) : Outcome Failure Kmem := do
  let k ← (List.range NPTE).foldlM (freeLevel1 R pt) k
  kfree R pt.root k

def uvmfree (R : Ram) (pt : PageTable) (sz : ℕ) (k : Kmem) : Outcome Failure Kmem := do
  let (k, pt) ← if sz > 0 then uvmunmap R true (pgroundup sz) 0 k pt else pure (k, pt)
  freewalk R pt k

def uvmcreate (k : Kmem) : Option PageTable × Kmem :=
  match kalloc k with
  | (none, k) => (none, k)
  | (some root, k) =>
    (some { root := root, level1 := fun _ => none, level0 := fun _ => none, pte := fun _ => .zero },
      k)

/-- `proc_pagetable`, with the page of `p->trapframe`. -/
def procPagetable (R : Ram) (trapframe : Ppn) (k : Kmem) :
    Outcome Failure (Option PageTable × Kmem) :=
  match uvmcreate k with
  | (none, k) => pure (none, k)
  | (some pt, k) => do
    let (ok, k, pt) ←
      mappages 1 TRAMPOLINE R.trampoline { Flags.none with r := true, x := true } k pt
    if !ok then do
      let k ← uvmfree R pt 0 k
      pure (none, k)
    else do
      let (ok, k, pt) ← mappages 1 TRAPFRAME trapframe { Flags.none with r := true, w := true } k pt
      if !ok then do
        let (k, pt) ← uvmunmap R false 1 TRAMPOLINE k pt
        let k ← uvmfree R pt 0 k
        pure (none, k)
      else pure (some pt, k)

def procFreepagetable (R : Ram) (pt : PageTable) (sz : ℕ) (k : Kmem) : Outcome Failure Kmem := do
  let (k, pt) ← uvmunmap R false 1 TRAMPOLINE k pt
  let (k, pt) ← uvmunmap R false 1 TRAPFRAME k pt
  uvmfree R pt sz k

end Xv6.Vm
