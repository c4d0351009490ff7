import Mathlib.Logic.Function.Basic

/-! # Slots that own resources

Each slot owns at most one resource and each resource is owned by at most one slot; a resource is in
use if some slot owns it.
-/

set_option autoImplicit false
open Function (update update_self update_of_ne)

/-- The resources in use are those some slot owns, and no two slots own the same one. -/
structure Owns {S B : Type*} (own : S → Option B) (used : B → Prop) : Prop where
  inj : ∀ s t b, own s = some b → own t = some b → s = t
  used_iff : ∀ b, used b ↔ ∃ s, own s = some b

namespace Owns
variable {S B : Type*} {own own' : S → Option B} {used used' : B → Prop}

theorem used_of_own (h : Owns own used) {s : S} {b : B} (hs : own s = some b) : used b :=
  (h.used_iff b).mpr ⟨s, hs⟩

theorem congr (h : Owns own used) (hown : ∀ s, own' s = own s) (hused : ∀ b, used' b ↔ used b) :
    Owns own' used' := by
  obtain rfl : own' = own := funext hown
  exact ⟨h.inj, fun b => (hused b).trans (h.used_iff b)⟩

theorem assign [DecidableEq S] (h : Owns own used) {s : S} {b : B} (hs : own s = none)
    (hb : ¬ used b) (hused : ∀ c, used' c ↔ c = b ∨ used c) :
    Owns (update own s (some b)) used' where
  inj := by
    have hfree : ∀ t, own t ≠ some b := fun t ht => hb (h.used_of_own ht)
    intro t u c ht hu
    by_cases hts : t = s <;> by_cases hus : u = s
    · rw [hts, hus]
    · rw [hts, update_self] at ht
      rw [update_of_ne hus, ← ht] at hu
      exact absurd hu (hfree u)
    · rw [hus, update_self] at hu
      rw [update_of_ne hts, ← hu] at ht
      exact absurd ht (hfree t)
    · rw [update_of_ne hts] at ht
      rw [update_of_ne hus] at hu
      exact h.inj t u c ht hu
  used_iff c := by
    rw [hused, h.used_iff]
    constructor
    · rintro (rfl | ⟨t, ht⟩)
      · exact ⟨s, update_self ..⟩
      · have hts : t ≠ s := by
          rintro rfl
          rw [hs] at ht
          cases ht
        exact ⟨t, by rw [update_of_ne hts]; exact ht⟩
    · rintro ⟨t, ht⟩
      by_cases hts : t = s
      · rw [hts, update_self] at ht
        exact .inl (Option.some.inj ht).symm
      · rw [update_of_ne hts] at ht
        exact .inr ⟨t, ht⟩

theorem release (h : Owns own used) (P : S → Prop) (hgone : ∀ s, P s → own' s = none)
    (hkept : ∀ s, ¬ P s → own' s = own s)
    (hused : ∀ b, used' b ↔ used b ∧ ∀ s, P s → own s ≠ some b) : Owns own' used' where
  inj s t b hs ht := by
    have hP : ∀ s, own' s = some b → ¬ P s := by
      intro s hs hP
      rw [hgone s hP] at hs
      cases hs
    rw [hkept s (hP s hs)] at hs
    rw [hkept t (hP t ht)] at ht
    exact h.inj s t b hs ht
  used_iff b := by
    rw [hused, h.used_iff]
    constructor
    · rintro ⟨⟨s, hs⟩, hP⟩
      exact ⟨s, by rw [hkept s fun hPs => hP s hPs hs]; exact hs⟩
    · rintro ⟨s, hs⟩
      have hPs : ¬ P s := by
        intro hPs
        rw [hgone s hPs] at hs
        cases hs
      rw [hkept s hPs] at hs
      refine ⟨⟨s, hs⟩, ?_⟩
      intro t hPt ht
      rw [h.inj s t b hs ht] at hPs
      exact hPs hPt

end Owns
