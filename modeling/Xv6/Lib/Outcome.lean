import Mathlib.Logic.Basic

/-! # Outcomes of an atomic step

An atomic step of a concurrent program waits for a lock, fails, or yields the next state.
`Ensures` is the weakest-precondition reading of an outcome: waiting is harmless, a failure has
to be one of the allowed ones, and a result has to meet the postcondition.
-/

set_option autoImplicit false

/-- What one atomic step does: it has to wait, it fails with `e`, or it returns `a`. -/
inductive Outcome (ε α : Type*) where
  | blocked
  | fail (e : ε)
  | ok (a : α)

namespace Outcome
universe u
variable {ε : Type*} {α β : Type u}

protected def bind : Outcome ε α → (α → Outcome ε β) → Outcome ε β
  | blocked, _ => blocked
  | fail e, _ => fail e
  | ok a, f => f a

instance : Monad (Outcome ε) where
  pure := ok
  bind := Outcome.bind

def result : Outcome ε α → Option α
  | ok a => some a
  | _ => none

theorem result_eq_some {r : Outcome ε α} {a : α} : r.result = some a ↔ r = ok a := by
  cases r <;> simp [result]

theorem bind_eq_ok {r : Outcome ε α} {f : α → Outcome ε β} {b : β} (h : r >>= f = ok b) :
    ∃ a, r = ok a ∧ f a = ok b := by
  cases r with
  | blocked => cases h
  | fail e => cases h
  | ok a => exact ⟨a, rfl, h⟩

/-- Any failure of `r` satisfies `E` and any result of `r` satisfies `Q`. -/
def Ensures (r : Outcome ε α) (E : ε → Prop) (Q : α → Prop) : Prop :=
  match r with
  | blocked => True
  | fail e => E e
  | ok a => Q a

section Rules
variable {E : ε → Prop} {Q : β → Prop} {a : α} {r : Outcome ε α}

@[simp] theorem ensures_blocked {Q : α → Prop} : (blocked : Outcome ε α).Ensures E Q := trivial

@[simp] theorem ensures_ok {Q : α → Prop} : (ok a : Outcome ε α).Ensures E Q ↔ Q a := Iff.rfl

@[simp] theorem ensures_pure {Q : α → Prop} : (pure a : Outcome ε α).Ensures E Q ↔ Q a := Iff.rfl

@[simp] theorem ensures_fail {Q : α → Prop} {e : ε} :
    (fail e : Outcome ε α).Ensures E Q ↔ E e := Iff.rfl

theorem ensures_bind {f : α → Outcome ε β} (h : r.Ensures E fun a => (f a).Ensures E Q) :
    (r >>= f).Ensures E Q := by
  cases r with
  | blocked => trivial
  | fail e => exact h
  | ok a => exact h

/-- A step that only happens under the condition `c`. -/
theorem ensures_guard {c : Prop} [Decidable c] {r : Outcome ε β} (h : c → r.Ensures E Q) :
    (if c then r else blocked).Ensures E Q := by
  split
  · next hc => exact h hc
  · trivial

theorem Ensures.mono {Q Q' : α → Prop} (h : r.Ensures E Q) (hQ : ∀ a, Q a → Q' a) :
    r.Ensures E Q' := by
  cases r with
  | blocked => trivial
  | fail e => exact h
  | ok a => exact hQ a h

theorem Ensures.weaken {E' : ε → Prop} {Q : α → Prop} (h : r.Ensures E Q) (hE : ∀ e, E e → E' e) :
    r.Ensures E' Q := by
  cases r with
  | blocked => trivial
  | fail e => exact hE e h
  | ok a => exact h

theorem Ensures.of_ok {Q : α → Prop} (h : r.Ensures E Q) (hr : r = ok a) : Q a := by
  subst hr
  exact h

theorem Ensures.of_fail {Q : α → Prop} {e : ε} (h : r.Ensures E Q) (hr : r = fail e) : E e := by
  subst hr
  exact h

end Rules
end Outcome
