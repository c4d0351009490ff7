import Mathlib.Data.Fintype.BigOperators

/-! # Counting the references of a finite table

A table `f : ι → Option α` refers to at most one element per entry. `countOf f a` is the number of
entries that refer to `a`; changing one entry changes it by at most one.
-/

set_option autoImplicit false
open Function (update update_self update_of_ne)

section CountOf
variable {ι α : Type*} [Fintype ι] [DecidableEq α] {f : ι → Option α} {i : ι}

def countOf (f : ι → Option α) (a : α) : ℕ := (Finset.univ.filter fun i => f i = some a).card

theorem countOf_pos {a : α} (h : f i = some a) : 0 < countOf f a :=
  Finset.card_pos.mpr ⟨i, Finset.mem_filter.mpr ⟨Finset.mem_univ i, h⟩⟩

theorem countOf_eq_zero {a : α} : countOf f a = 0 ↔ ∀ i, f i ≠ some a := by
  rw [countOf, Finset.card_eq_zero, Finset.filter_eq_empty_iff]
  simp

theorem countOf_update [DecidableEq ι] (f : ι → Option α) (i : ι) (v : Option α) (a : α) :
    countOf (update f i v) a + (if f i = some a then 1 else 0) =
      countOf f a + (if v = some a then 1 else 0) := by
  have hsplit : ∀ g : ι → Option α, countOf g a =
      ((Finset.univ.erase i).filter fun j => g j = some a).card +
        (if g i = some a then 1 else 0) := by
    intro g
    rw [countOf, Finset.card_filter, Finset.card_filter,
      ← Finset.sum_erase_add Finset.univ _ (Finset.mem_univ i)]
  have hrest : ((Finset.univ.erase i).filter fun j => update f i v j = some a) =
      (Finset.univ.erase i).filter fun j => f j = some a := by
    apply Finset.filter_congr
    intro j hj
    rw [update_of_ne (Finset.ne_of_mem_erase hj)]
  rw [hsplit (update f i v), hsplit f, hrest, update_self]
  omega

theorem countOf_set [DecidableEq ι] (h : f i = none) (b a : α) :
    countOf (update f i (some b)) a = countOf f a + if b = a then 1 else 0 := by
  have hu := countOf_update f i (some b) a
  simp only [h, reduceCtorEq, if_false, Option.some.injEq] at hu
  exact hu

theorem countOf_clear [DecidableEq ι] {b : α} (h : f i = some b) (a : α) :
    countOf (update f i none) a + (if b = a then 1 else 0) = countOf f a := by
  have hu := countOf_update f i none a
  simp only [h, reduceCtorEq, if_false, Option.some.injEq] at hu
  exact hu

theorem countOf_move [DecidableEq ι] {j : ι} (hne : i ≠ j) (hj : f j = none) (a : α) :
    countOf (update (update f i none) j (f i)) a = countOf f a := by
  have hi := countOf_update f i none a
  have hij := countOf_update (update f i none) j (f i) a
  rw [update_of_ne hne.symm, hj] at hij
  simp only [reduceCtorEq, if_false] at hi hij
  omega

theorem countOf_prod {κ : Type*} [Fintype κ] (f : κ → ι → Option α) (a : α) :
    countOf (fun x : κ × ι => f x.1 x.2) a = ∑ k, countOf (f k) a := by
  simp only [countOf, Finset.card_filter]
  exact Fintype.sum_prod_type _

end CountOf
