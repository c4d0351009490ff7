import Xv6.Lib.RadixTree
import Xv6.Vm.Mem

/-! # The page table in memory

`walk`, `mappages` and `uvmunmap` of `kernel/vm.c` on 64-bit addresses and entries, with the table
pages in physical memory. A page is given by its address, a pointer to an entry by the page and the
index in it.
-/

namespace Xv6.Sv39
set_option autoImplicit false
open Xv6.Vm (Ram)

abbrev Word := BitVec 64

/-! ## The macros of `kernel/riscv.h` -/

def PTE_V : Word := 1 <<< 0
def PTE_COW : Word := 1 <<< 8
def PGSIZE : Word := 4096
def MAXVA : Word := 1 <<< (9 + 9 + 9 + 12 - 1)

def pgrounddown (a : Word) : Word := a &&& ~~~(PGSIZE - 1)

def pa2pte (pa : Word) : Word := (pa >>> 12) <<< 10

def pte2pa (pte : Word) : Word := (pte >>> 10) <<< 12

def pteFlags (pte : Word) : Word := pte &&& 0x3FF

theorem and_pxmask (a : Word) : (a &&& 0x1FF).toNat = a.toNat % 512 := by
  rw [BitVec.toNat_and]
  exact Nat.and_two_pow_sub_one_eq_mod a.toNat 9

def px (level : ℕ) (va : Word) : Fin 512 :=
  ⟨((va >>> (12 + 9 * level)) &&& 0x1FF).toNat, by rw [and_pxmask]; omega⟩

/-! ## Physical memory -/

/-- The 512 words of each page, `refCount` and `kmem.freelist`. -/
structure Phys where
  word : Word → Fin 512 → Word
  refCount : Word → ℤ
  freelist : List Word

namespace Phys

def memset (m : Phys) (pg c : Word) : Phys :=
  { m with word := Function.update m.word pg fun _ => c }

def write (m : Phys) (pg : Word) (i : Fin 512) (e : Word) : Phys :=
  { m with word := RadixTree.setEntry m.word pg i e }

def kalloc (m : Phys) : Option Word × Phys :=
  match m.freelist with
  | [] => (none, m)
  | r :: next =>
    let m := { m with freelist := next }.memset r 0x0505050505050505
    (some r, { m with refCount := Function.update m.refCount r (m.refCount r + 1) })

def kfree (R : Ram) (pa : Word) (m : Phys) : Outcome Failure Phys :=
  if pa % PGSIZE ≠ 0 ∨ ¬ R.Allocatable (pa.toNat / 4096) then .fail (.panic "kfree")
  else
    let m := { m with refCount := Function.update m.refCount pa (m.refCount pa - 1) }
    if m.refCount pa = 0 then
      let m := m.memset pa 0x0101010101010101
      pure { m with freelist := pa :: m.freelist }
    else pure m

end Phys

/-! ## `kernel/vm.c` -/

def walkLevel (alloc : Bool) (level : ℕ) (va : Word) (m : Phys) (pagetable : Word) :
    Option Word × Phys :=
  let pte := m.word pagetable (px level va)
  if pte &&& PTE_V ≠ 0 then (some (pte2pa pte), m)
  else if !alloc then (none, m)
  else
    match m.kalloc with
    | (none, m) => (none, m)
    | (some page, m) =>
      (some page, (m.memset page 0).write pagetable (px level va) (pa2pte page ||| PTE_V))

/-- `walk`; the result is null or points to the entry of `va` in its level-0 table. -/
def walk (alloc : Bool) (pagetable va : Word) (m : Phys) :
    Outcome Failure (Option (Word × Fin 512) × Phys) :=
  if va ≥ MAXVA then .fail (.panic "walk")
  else
    match walkLevel alloc 2 va m pagetable with
    | (none, m) => pure (none, m)
    | (some pagetable, m) =>
      match walkLevel alloc 1 va m pagetable with
      | (none, m) => pure (none, m)
      | (some pagetable, m) => pure (some (pagetable, px 0 va), m)

def mappagesLoop (pagetable last perm : Word) : (fuel : ℕ) → (a pa : Word) → Phys →
    Outcome Failure (Bool × Phys)
  | 0, _, _, _ => .blocked
  | fuel + 1, a, pa, m => do
    let (pte, m) ← walk true pagetable a m
    match pte with
    | none => pure (false, m)
    | some (pg, i) =>
      if m.word pg i &&& PTE_V ≠ 0 ∧ m.word pg i &&& PTE_COW = 0 then
        .fail (.panic "mappages: remap")
      else
        let m := m.write pg i (pa2pte pa ||| perm ||| PTE_V)
        if a = last then pure (true, m)
        else mappagesLoop pagetable last perm fuel (a + PGSIZE) (pa + PGSIZE) m

/-- `mappages`; the result tells whether it returns 0. Above `MAXVA` the loop panics, so it has at
most 2²⁶ rounds. -/
def mappages (pagetable va size pa perm : Word) (m : Phys) : Outcome Failure (Bool × Phys) :=
  if size = 0 then .fail (.panic "mappages: size")
  else mappagesLoop pagetable (pgrounddown (va + size - 1)) perm (2 ^ 27) (pgrounddown va) pa m

def uvmunmapLoop (R : Ram) (pagetable stop : Word) (doFree : Bool) : (fuel : ℕ) → (a : Word) →
    Phys → Outcome Failure Phys
  | 0, _, _ => .blocked
  | fuel + 1, a, m =>
    if a < stop then do
      let (pte, m) ← walk false pagetable a m
      match pte with
      | none => .fail (.panic "uvmunmap: walk")
      | some (pg, i) =>
        if m.word pg i &&& PTE_V = 0 then .fail (.panic "uvmunmap: not mapped")
        else if pteFlags (m.word pg i) = PTE_V then .fail (.panic "uvmunmap: not a leaf")
        else do
          let m ← if doFree then m.kfree R (pte2pa (m.word pg i)) else pure m
          uvmunmapLoop R pagetable stop doFree fuel (a + PGSIZE) (m.write pg i 0)
    else pure m

def uvmunmap (R : Ram) (pagetable va npages : Word) (doFree : Bool) (m : Phys) :
    Outcome Failure Phys :=
  if va % PGSIZE ≠ 0 then .fail (.panic "uvmunmap: not aligned")
  else uvmunmapLoop R pagetable (va + npages * PGSIZE) doFree (2 ^ 27) va m

end Xv6.Sv39
