import Mathlib.Data.Prod.Lex

/-! # A running minimum whose bound is not updated

A scan keeps the best element so far and compares the next one with a bound `b` on the first
component of its rank, and with the best element on the second. If `b` is not brought up to date
when the best element changes, the scan can end on an element that is not the least one. The rule
here says when it does not.
-/

set_option autoImplicit false

namespace StaleMin
variable {α δ κ : Type*} [LinearOrder δ] [LinearOrder κ] (d : α → δ) (k : α → κ) (b : δ)

def rank (p : α) : δ ×ₗ κ := toLex (d p, k p)

def Beats (q p : α) : Prop := d p < b ∨ d p = b ∧ k p < k q

instance (q p : α) : Decidable (Beats d k b q p) := inferInstanceAs (Decidable (_ ∨ _))

def best (q : α) (l : List α) : α := l.foldl (fun q p => if Beats d k b q p then p else q) q

@[simp] theorem best_nil (q : α) : best d k b q [] = q := rfl

@[simp] theorem best_cons (q p : α) (l : List α) :
    best d k b q (p :: l) = best d k b (if Beats d k b q p then p else q) l := rfl

variable {d k b} {q : α}

theorem rank_le_iff {p : α} : rank d k p ≤ rank d k q ↔ d p < d q ∨ d p = d q ∧ k p ≤ k q :=
  Prod.Lex.toLex_le_toLex

theorem exists_split (q : α) (l : List α) : ∃ l1 l2, q :: l = l1 ++ best d k b q l :: l2 ∧
    ∀ p ∈ l2, ¬ Beats d k b (best d k b q l) p := by
  induction l generalizing q with
  | nil => exact ⟨[], [], rfl, by simp⟩
  | cons p l ih =>
    rw [best_cons]
    split
    · obtain ⟨l1, l2, hl, hlast⟩ := ih p
      exact ⟨q :: l1, l2, by rw [hl, List.cons_append], hlast⟩
    · next hp =>
      obtain ⟨l1, l2, hl, hlast⟩ := ih q
      cases l1 with
      | nil =>
        obtain ⟨hq, rfl⟩ := List.cons.inj hl
        rw [← hq] at hlast ⊢
        refine ⟨[], p :: l, rfl, ?_⟩
        intro r hr
        rcases List.mem_cons.mp hr with rfl | hr
        · exact hp
        · exact hlast r hr
      | cons q' l1 =>
        obtain ⟨rfl, htail⟩ := List.cons.inj hl
        exact ⟨q :: p :: l1, l2, congrArg (fun t => q :: p :: t) htail, hlast⟩

theorem best_eq_self {l : List α} (h : ∀ p ∈ l, ¬ Beats d k b q p) : best d k b q l = q := by
  induction l with
  | nil => rfl
  | cons p l ih =>
    rw [best_cons, if_neg (h p List.mem_cons_self)]
    exact ih fun r hr => h r (List.mem_cons_of_mem p hr)

theorem best_eq_of_split {f : α} {l1 l2 : List α} (hf : d f < b)
    (h : ∀ p ∈ l2, ¬ Beats d k b f p) : best d k b q (l1 ++ f :: l2) = f := by
  rw [best, List.foldl_append, List.foldl_cons, if_pos (.inl hf)]
  exact best_eq_self h

theorem best_le {l : List α} (hq : d q = b) (hl : ∀ p ∈ l, b ≤ d p) :
    d (best d k b q l) = b ∧ ∀ p ∈ q :: l, rank d k (best d k b q l) ≤ rank d k p := by
  induction l generalizing q with
  | nil => simp [hq]
  | cons p l ih =>
    have hp := hl p List.mem_cons_self
    have hl' : ∀ r ∈ l, b ≤ d r := fun r hr => hl r (List.mem_cons_of_mem p hr)
    rw [best_cons]
    split
    · next hbeats =>
      -- the new element has the bound for its first component and is smaller in the second
      obtain ⟨hdp, hkp⟩ : d p = b ∧ k p < k q := hbeats.resolve_left (not_lt.mpr hp)
      obtain ⟨hd, hle⟩ := ih hdp hl'
      refine ⟨hd, ?_⟩
      intro r hr
      rcases List.mem_cons.mp hr with rfl | hr
      · refine (hle p List.mem_cons_self).trans ?_
        rw [rank_le_iff]
        exact .inr ⟨hdp.trans hq.symm, hkp.le⟩
      · exact hle r hr
    · next hbeats =>
      obtain ⟨hd, hle⟩ := ih hq hl'
      refine ⟨hd, ?_⟩
      intro r hr
      rcases List.mem_cons.mp hr with rfl | hr
      · exact hle r List.mem_cons_self
      rcases List.mem_cons.mp hr with rfl | hr
      · refine (hle q List.mem_cons_self).trans ?_
        rw [rank_le_iff, hq]
        rcases hp.lt_or_eq with hlt | heq
        · exact .inl hlt
        · refine .inr ⟨heq, ?_⟩
          rw [Beats, not_or] at hbeats
          exact not_lt.mp fun hlt => hbeats.2 ⟨heq.symm, hlt⟩
      · exact hle r (List.mem_cons_of_mem q hr)

/-- The scan that starts with its first element and bound finds the least element if and only if
nothing is below that bound, or the last element below it is the least one and nothing after that
has beaten it. -/
theorem best_le_iff (q : α) (l : List α) :
    (∀ p ∈ q :: l, rank d k (best d k (d q) q l) ≤ rank d k p) ↔
      (∀ p ∈ l, d q ≤ d p) ∨ ∃ l1 f l2, l = l1 ++ f :: l2 ∧ d f < d q ∧
        (∀ p ∈ q :: l, rank d k f ≤ rank d k p) ∧ ∀ p ∈ l2, ¬ Beats d k (d q) f p := by
  constructor
  · intro hle
    by_cases hl : ∀ p ∈ l, d q ≤ d p
    · exact .inl hl
    push Not at hl
    obtain ⟨p, hp, hpq⟩ := hl
    obtain ⟨l1, l2, hsplit, hlast⟩ := exists_split (k := k) (b := d q) q l
    generalize best d k (d q) q l = f at *
    have hfq : d f < d q := by
      rcases rank_le_iff.mp (hle p (List.mem_cons_of_mem q hp)) with hlt | ⟨heq, -⟩
      · exact hlt.trans hpq
      · exact heq ▸ hpq
    cases l1 with
    | nil =>
      obtain ⟨rfl, -⟩ := List.cons.inj hsplit
      exact absurd hfq (lt_irrefl _)
    | cons q' l1 =>
      obtain ⟨-, hl⟩ := List.cons.inj hsplit
      exact .inr ⟨l1, f, l2, hl, hfq, hle, hlast⟩
  · rintro (hl | ⟨l1, f, l2, rfl, hf, hle, hlast⟩)
    · exact (best_le rfl hl).2
    · rw [best_eq_of_split hf hlast]
      exact hle

end StaleMin
