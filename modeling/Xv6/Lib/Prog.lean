import Xv6.Lib.Outcome

/-! # Programs on a state

A program takes a state and waits, fails, or returns a value and a state. `wp` is its weakest
precondition: the failures that may occur are bounded by one predicate and the results by another.
-/

set_option autoImplicit false

/-- A program on states `σ` that may fail with an `ε` and returns an `α`. -/
def Prog (ε σ α : Type) : Type := σ → Outcome ε (α × σ)

namespace Prog
variable {ε σ α β : Type}

instance : Monad (Prog ε σ) where
  pure a s := .ok (a, s)
  bind m f s := (m s).bind fun r => f r.1 r.2

def fail (e : ε) : Prog ε σ α := fun _ => .fail e

def read (f : σ → α) : Prog ε σ α := fun s => .ok (f s, s)

def modify (f : σ → σ) : Prog ε σ Unit := fun s => .ok ((), f s)

/-- From `s`, `m` does not wait; a failure satisfies `E` and a result satisfies `Q`. -/
def wp (m : Prog ε σ α) (E : ε → Prop) (Q : α → σ → Prop) (s : σ) : Prop :=
  match m s with
  | .blocked => False
  | .fail e => E e
  | .ok r => Q r.1 r.2

variable {E : ε → Prop} {Q : β → σ → Prop} {s : σ} {m : Prog ε σ β}

@[simp] theorem wp_pure {b : β} : (pure b : Prog ε σ β).wp E Q s ↔ Q b s := Iff.rfl

@[simp] theorem wp_read {f : σ → β} : (read f : Prog ε σ β).wp E Q s ↔ Q (f s) s := Iff.rfl

@[simp] theorem wp_modify {f : σ → σ} {Q : Unit → σ → Prop} :
    (modify f : Prog ε σ Unit).wp E Q s ↔ Q () (f s) := Iff.rfl

@[simp] theorem wp_bind {m : Prog ε σ α} {f : α → Prog ε σ β} :
    (m >>= f).wp E Q s ↔ m.wp E (fun a s => (f a).wp E Q s) s := by
  change (match (m s).bind fun r => f r.1 r.2 with
    | .blocked => False
    | .fail e => E e
    | .ok r => Q r.1 r.2) ↔ _
  unfold wp
  cases m s <;> exact Iff.rfl

theorem wp.mono {Q' : β → σ → Prop} (h : m.wp E Q s) (hQ : ∀ b t, Q b t → Q' b t) :
    m.wp E Q' s := by
  revert h
  unfold wp
  cases m s with
  | blocked => exact id
  | fail e => exact id
  | ok r => exact hQ _ _

theorem wp.ensures (h : m.wp E Q s) : (m s).Ensures E fun r => Q r.1 r.2 := by
  revert h
  unfold wp
  cases m s with
  | blocked => exact False.elim
  | fail e => exact id
  | ok r => exact id

theorem wp.returns (h : m.wp (fun _ => False) Q s) : ∃ b t, m s = .ok (b, t) ∧ Q b t := by
  revert h
  unfold wp
  cases m s with
  | blocked => exact False.elim
  | fail e => exact False.elim
  | ok r => exact fun h => ⟨r.1, r.2, rfl, h⟩

end Prog
