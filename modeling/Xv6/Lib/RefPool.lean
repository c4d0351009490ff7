import Mathlib.Algebra.BigOperators.Group.Finset.Piecewise

/-! # Reference-counted pages

A pool keeps a reference count for each page and a free list. Who uses a page is described by a
multiset of shares: a `sole` share is the only share of its page, while a page can have any number
of `shared` ones. The pool is exact for a multiset when each count is the number of shares and the
free list holds each page without a share exactly once.
-/

set_option autoImplicit false
open Multiset (count_pos mem_cons mem_cons_self mem_cons_of_mem)

namespace RefPool
variable {P : Type*}

/-- One use of a page. -/
inductive Share (P : Type*) where
  | sole (p : P)
  | shared (p : P)
  deriving DecidableEq

def Share.page : Share P → P
  | sole p | shared p => p

section Count
variable [DecidableEq P]

def uses (M : Multiset (Share P)) (p : P) : ℕ := (M.map Share.page).count p

@[simp] theorem uses_zero (p : P) : uses 0 p = 0 := by simp [uses]

@[simp] theorem uses_add (M N : Multiset (Share P)) (p : P) :
    uses (M + N) p = uses M p + uses N p := by
  simp [uses]

theorem uses_cons (x : Share P) (M : Multiset (Share P)) (p : P) :
    uses (x ::ₘ M) p = uses M p + if x.page = p then 1 else 0 := by
  rw [uses, Multiset.map_cons, Multiset.count_cons, uses]
  simp only [eq_comm]

theorem uses_eq (M : Multiset (Share P)) (p : P) :
    uses M p = M.count (.sole p) + M.count (.shared p) := by
  induction M using Multiset.induction_on with
  | empty => simp
  | cons x M ih =>
    rw [uses_cons, ih]
    cases x with
    | sole q | shared q =>
      by_cases h : q = p
      · subst h
        simp [Share.page]
        omega
      · simp [Share.page, h, Ne.symm h]

theorem uses_pos {M : Multiset (Share P)} {x : Share P} (hx : x ∈ M) : 0 < uses M x.page :=
  count_pos.mpr (Multiset.mem_map_of_mem _ hx)

end Count

/-- The counts and the free list agree with the shares `M`; `valid` are the pages of the pool. -/
structure Exact [DecidableEq P] (valid : P → Prop) (ref : P → ℤ) (free : List P)
    (M : Multiset (Share P)) : Prop where
  ref_eq : ∀ p, valid p → ref p = uses M p
  free_count : ∀ p, valid p → free.count p = if uses M p = 0 then 1 else 0
  free_valid : ∀ p ∈ free, valid p
  own_valid : ∀ x ∈ M, valid x.page
  sole_uses : ∀ p, .sole p ∈ M → uses M p = 1

namespace Exact
variable [DecidableEq P] {valid : P → Prop} {ref : P → ℤ} {free : List P} {M : Multiset (Share P)}
  {p : P} {x : Share P}

theorem uses_of_mem_free (hE : Exact valid ref free M) (hp : p ∈ free) :
    uses M p = 0 ∧ free.count p = 1 := by
  have hc := hE.free_count p (hE.free_valid p hp)
  have hpos : 0 < free.count p := List.count_pos_iff.mpr hp
  by_cases hu : uses M p = 0
  · exact ⟨hu, by simpa [hu] using hc⟩
  · simp [hu] at hc
    omega

theorem sole_not_mem (hE : Exact valid ref free M) (hp : .shared p ∈ M) : .sole p ∉ M := by
  intro hs
  have hone := hE.sole_uses p hs
  rw [uses_eq] at hone
  have h1 := count_pos.mpr hp
  have h2 := count_pos.mpr hs
  omega

theorem alloc (hE : Exact valid ref (p :: free) M) (hx : x.page = p) :
    Exact valid (Function.update ref p (ref p + 1)) free (x ::ₘ M) := by
  have hv : valid p := hE.free_valid p (by simp)
  obtain ⟨hzero, hcount⟩ := hE.uses_of_mem_free (p := p) (by simp)
  have huses : ∀ q, uses (x ::ₘ M) q = if q = p then 1 else uses M q := by
    intro q
    rw [uses_cons, hx]
    by_cases h : q = p
    · subst h
      simp [hzero]
    · simp [h, Ne.symm h]
  refine ⟨?_, ?_, ?_, ?_, ?_⟩
  · intro q hq
    rw [huses]
    by_cases h : q = p
    · subst h
      simp [hE.ref_eq q hq, hzero]
    · simp [h, hE.ref_eq q hq]
  · intro q hq
    have hc := hE.free_count q hq
    rw [huses]
    by_cases h : q = p
    · subst h
      simp at hcount
      simp [hcount]
    · rw [List.count_cons_of_ne (Ne.symm h)] at hc
      simpa [h] using hc
  · intro q hq
    exact hE.free_valid q (List.mem_cons_of_mem _ hq)
  · intro y hy
    rcases mem_cons.mp hy with rfl | hy
    · exact hx ▸ hv
    · exact hE.own_valid y hy
  · intro q hq
    rw [huses]
    by_cases h : q = p
    · simp [h]
    · rcases mem_cons.mp hq with rfl | hq
      · exact absurd hx h
      · simp [h, hE.sole_uses q hq]

theorem relax (hE : Exact valid ref free (x ::ₘ M)) :
    Exact valid ref free (.shared x.page ::ₘ M) := by
  have huses : ∀ q, uses (.shared x.page ::ₘ M) q = uses (x ::ₘ M) q := by
    intro q
    rw [uses_cons, uses_cons]
    rfl
  refine ⟨?_, ?_, hE.free_valid, ?_, ?_⟩
  · intro q hq
    rw [huses, hE.ref_eq q hq]
  · intro q hq
    rw [huses, hE.free_count q hq]
  · intro y hy
    rcases mem_cons.mp hy with rfl | hy
    · exact hE.own_valid x (mem_cons_self x M)
    · exact hE.own_valid y (mem_cons_of_mem hy)
  · intro q hq
    rcases mem_cons.mp hq with h | hq
    · cases h
    · rw [huses, hE.sole_uses q (mem_cons_of_mem hq)]

theorem dup (hE : Exact valid ref free M) (hp : .shared p ∈ M) :
    Exact valid (Function.update ref p (ref p + 1)) free (.shared p ::ₘ M) := by
  have hpos : 0 < uses M p := uses_pos hp
  have huses : ∀ q, uses (.shared p ::ₘ M) q = if q = p then uses M p + 1 else uses M q := by
    intro q
    rw [uses_cons]
    by_cases h : q = p
    · subst h
      simp [Share.page]
    · simp [h, Ne.symm h, Share.page]
  refine ⟨?_, ?_, hE.free_valid, ?_, ?_⟩
  · intro q hq
    rw [huses]
    by_cases h : q = p
    · subst h
      simp [hE.ref_eq q hq]
    · simp [h, hE.ref_eq q hq]
  · intro q hq
    rw [huses, hE.free_count q hq]
    by_cases h : q = p
    · subst h
      simp [hpos.ne']
    · simp [h]
  · intro y hy
    rcases mem_cons.mp hy with rfl | hy
    · exact hE.own_valid _ hp
    · exact hE.own_valid y hy
  · intro q hq
    rcases mem_cons.mp hq with h | hq'
    · cases h
    · have h : q ≠ p := by
        rintro rfl
        exact hE.sole_not_mem hp hq'
      rw [huses]
      simp [h, hE.sole_uses q hq']

theorem drop (hE : Exact valid ref free (x ::ₘ M)) :
    Exact valid (Function.update ref x.page (ref x.page - 1))
      (if ref x.page - 1 = 0 then x.page :: free else free) M := by
  have hv : valid x.page := hE.own_valid x (mem_cons_self x M)
  have huses : ∀ q, uses (x ::ₘ M) q = if q = x.page then uses M q + 1 else uses M q := by
    intro q
    rw [uses_cons]
    by_cases h : q = x.page
    · simp [h]
    · simp [h, Ne.symm h]
  have href : ref x.page - 1 = uses M x.page := by
    rw [hE.ref_eq _ hv, huses]
    simp
  have hlast : ref x.page - 1 = 0 ↔ uses M x.page = 0 := by
    rw [href]
    exact Int.natCast_eq_zero
  refine ⟨?_, ?_, ?_, ?_, ?_⟩
  · intro q hq
    by_cases h : q = x.page
    · subst h
      simpa using href
    · rw [Function.update_of_ne h, hE.ref_eq q hq, huses, if_neg h]
  · intro q hq
    have hc := hE.free_count q hq
    rw [huses] at hc
    by_cases h : q = x.page
    · subst h
      rw [if_pos rfl, if_neg (Nat.succ_ne_zero _)] at hc
      by_cases hu : uses M x.page = 0
      · rw [if_pos (hlast.mpr hu), if_pos hu, List.count_cons_self, hc]
      · rw [if_neg (fun he => hu (hlast.mp he)), if_neg hu, hc]
    · rw [if_neg h] at hc
      split
      · rw [List.count_cons_of_ne (Ne.symm h), hc]
      · exact hc
  · intro q hq
    split at hq
    · rcases List.mem_cons.mp hq with rfl | hq
      · exact hv
      · exact hE.free_valid q hq
    · exact hE.free_valid q hq
  · intro y hy
    exact hE.own_valid y (mem_cons_of_mem hy)
  · intro q hq
    have hone := hE.sole_uses q (mem_cons_of_mem hq)
    have hpos := uses_pos hq
    rw [huses] at hone
    simp only [Share.page] at hpos
    split at hone <;> omega

end Exact

/-! ## Sums of shares over a table -/

theorem sum_update_add {α K : Type*} [DecidableEq K] [AddCommMonoid α] {S : Finset K} {a : K}
    (ha : a ∈ S) (g : K → α) (m : α) :
    (∑ k ∈ S, Function.update g a m k) + g a = m + ∑ k ∈ S, g k := by
  rw [Finset.sum_update_of_mem ha, add_assoc]
  congr 1
  rw [← Finset.sum_sdiff (Finset.singleton_subset_iff.mpr ha), Finset.sum_singleton]

end RefPool
