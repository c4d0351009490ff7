import Xv6.Vm.User

/-! # Address spaces

The user memory of a process without physical pages: each mapped page has its own contents and the
bits of its entry. The operations on address spaces say what the functions of `kernel/vm.c` are
for; which pages are shared cannot be seen here.
-/

namespace Xv6.Vm
set_option autoImplicit false

structure UPage where
  data : Page
  flags : Flags

abbrev Space := ℕ → Option UPage

namespace Space

def empty : Space := fun _ => none

def grow (m : Space) (a n : ℕ) (perm : Flags) : Space := fun v =>
  if a ≤ v ∧ v < a + n then some ⟨ByteBlock.fill PGSIZE 0, { perm with v := true }⟩ else m v

def truncate (m : Space) (n : ℕ) : Space := fun v => if v < n then m v else none

def share (m : Space) : Space := fun v => (m v).map fun p => { p with flags := p.flags.share }

def shareTo (m : Space) (n : ℕ) : Space := fun v => if v < n then m.share v else m v

def setFlags (m : Space) (v : ℕ) (f : Flags → Flags) : Space :=
  Function.update m v ((m v).map fun p => { p with flags := f p.flags })

def write (m : Space) (v off : ℕ) (src : List UInt8) : Space :=
  Function.update m v ((m v).map fun p => { p with data := p.data.overwrite off src })

/-- The bits after a copy-on-write fault. -/
def cowFlags (_ : Flags) : Flags := { cowPerm with v := true }

def store (m : Space) (va : ℕ) (b : UInt8) : Space :=
  let v := va / PGSIZE
  match m v with
  | none => m
  | some p =>
    if p.flags.u && p.flags.w then m.write v (va % PGSIZE) [b]
    else if p.flags.cow then (m.setFlags v cowFlags).write v (va % PGSIZE) [b]
    else m

def copyoutPage (m : Space) (v off : ℕ) (src : List UInt8) : Option Space :=
  match m v with
  | none => none
  | some p =>
    if p.flags.u then
      some ((if p.flags.cow then m.setFlags v cowFlags else m).write v off src)
    else none

def copyoutLoop : (fuel dstva : ℕ) → List UInt8 → Space → Bool × Space
  | 0, _, _, m => (true, m)
  | fuel + 1, dstva, src, m =>
    if src = [] then (true, m)
    else
      let v := dstva / PGSIZE
      let off := dstva % PGSIZE
      let n := min (PGSIZE - off) src.length
      match m.copyoutPage v off (src.take n) with
      | none => (false, m)
      | some m => copyoutLoop fuel ((v + 1) * PGSIZE) (src.drop n) m

def copyout (m : Space) (dstva : ℕ) (src : List UInt8) : Bool × Space :=
  copyoutLoop src.length dstva src m

def load (m : Space) (va : ℕ) : Option UInt8 :=
  (m (va / PGSIZE)).bind fun p =>
    if p.flags.u && p.flags.r then some (p.data.byteAt va) else none

def copyinLoop (m : Space) : (fuel srcva len : ℕ) → Option (List UInt8)
  | 0, _, _ => some []
  | fuel + 1, srcva, len =>
    if len = 0 then some []
    else
      let v := srcva / PGSIZE
      let off := srcva % PGSIZE
      let n := min (PGSIZE - off) len
      match m v with
      | none => none
      | some p =>
        if p.flags.u then
          (copyinLoop m fuel ((v + 1) * PGSIZE) (len - n)).map (p.data.bytes off n ++ ·)
        else none

def copyin (m : Space) (srcva len : ℕ) : Option (List UInt8) := m.copyinLoop len srcva len

theorem grow_zero (m : Space) (a : ℕ) (perm : Flags) : m.grow a 0 perm = m := by
  funext v
  simp only [grow, Nat.add_zero]
  rw [if_neg (by omega)]

theorem grow_succ (m : Space) (a n : ℕ) (perm : Flags) :
    (m.grow a 1 perm).grow (a + 1) n perm = m.grow a (n + 1) perm := by
  funext v
  simp only [grow]
  by_cases h : v = a
  · subst h
    simp
  · by_cases h' : a + 1 ≤ v ∧ v < a + 1 + n
    · rw [if_pos h', if_pos (by omega)]
    · rw [if_neg h', if_neg (by omega), if_neg (by omega)]

theorem truncate_grow (m : Space) {a b n : ℕ} (h : b ≤ a) (perm : Flags) :
    (m.grow a n perm).truncate b = m.truncate b := by
  funext v
  simp only [truncate, grow]
  by_cases hv : v < b
  · rw [if_pos hv, if_pos hv, if_neg (by omega)]
  · rw [if_neg hv, if_neg hv]

end Space

def PageTable.space (pt : PageTable) (k : Kmem) : Space := fun v =>
  if v < TRAPFRAME ∧ (pt.pte v).flags.v = true then
    some ⟨k.data (pt.pte v).ppn, (pt.pte v).flags⟩
  else none

end Xv6.Vm
