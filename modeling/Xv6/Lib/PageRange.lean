import Mathlib.Tactic.Ring

/-! # Ranges of addresses cut into pages

A loop over the `len` bytes from address `va` on that works page by page handles
`min (P - va % P) len` bytes of page `va / P` and goes on at the start of the next page.
-/

set_option autoImplicit false

namespace PageRange
variable {P va len v i : ℕ}

/-- Page `v` has one of the `len` bytes from `va` on. -/
def Touches (P va len v : ℕ) : Prop := ∃ i, i < len ∧ (va + i) / P = v

instance : Decidable (Touches P va len v) :=
  inferInstanceAs (Decidable (∃ i, i < len ∧ (va + i) / P = v))

theorem not_touches_zero : ¬ Touches P va 0 v := by
  rintro ⟨i, hi, -⟩
  omega

theorem touches_head (hlen : 0 < len) : Touches P va len (va / P) := ⟨0, hlen, rfl⟩

theorem Touches.le (h : Touches P va len v) : va / P ≤ v := by
  obtain ⟨i, -, rfl⟩ := h
  exact Nat.div_le_div_right (Nat.le_add_right va i)

theorem div_of_lt (hi : i < P - va % P) : (va + i) / P = va / P := by
  have hP : 0 < P := by omega
  have hva := Nat.div_add_mod va P
  have hsum : va + i = (va % P + i) + P * (va / P) := by omega
  rw [hsum, Nat.add_mul_div_left _ _ hP, Nat.div_eq_of_lt (by omega), Nat.zero_add]

theorem mod_of_lt (hi : i < P - va % P) : (va + i) % P = va % P + i := by
  have hva := Nat.div_add_mod va P
  have hsum : va + i = (va % P + i) + P * (va / P) := by omega
  rw [hsum, Nat.add_mul_mod_self_left, Nat.mod_eq_of_lt (by omega)]

theorem next_eq (hP : 0 < P) : (va / P + 1) * P = va + (P - va % P) := by
  have hva := Nat.div_add_mod va P
  have hlt := Nat.mod_lt va hP
  have : (va / P + 1) * P = P * (va / P) + P := by ring
  omega

theorem touches_next (hP : 0 < P) (hlen : 0 < len) :
    Touches P va len v ↔
      v = va / P ∨ Touches P ((va / P + 1) * P) (len - min (P - va % P) len) v := by
  rw [next_eq hP]
  constructor
  · rintro ⟨i, hi, rfl⟩
    by_cases hin : i < P - va % P
    · exact Or.inl (div_of_lt hin)
    · refine Or.inr ⟨i - (P - va % P), by omega, ?_⟩
      rw [show va + (P - va % P) + (i - (P - va % P)) = va + i by omega]
  · rintro (rfl | ⟨i, hi, rfl⟩)
    · exact touches_head hlen
    · exact ⟨P - va % P + i, by omega, by rw [Nat.add_assoc]⟩

theorem Touches.lt_of_rest (hP : 0 < P)
    (h : Touches P ((va / P + 1) * P) len v) : va / P < v := by
  have := h.le
  rw [Nat.mul_div_cancel _ hP] at this
  omega

theorem range_map_split {α : Type*} (hP : 0 < P) (f : ℕ → α) :
    (List.range' va len).map f =
      (List.range' va (min (P - va % P) len)).map f ++
        (List.range' ((va / P + 1) * P) (len - min (P - va % P) len)).map f := by
  rw [next_eq hP, ← List.map_append]
  congr 1
  rcases Nat.le_total (P - va % P) len with h | h
  · rw [Nat.min_eq_left h, List.range'_append_1, Nat.add_sub_cancel' h]
  · rw [Nat.min_eq_right h, Nat.sub_self, List.range'_zero, List.append_nil]

end PageRange
