import Mathlib.Logic.Relation

/-! # Labelled transition systems

A system is a set of initial states and a labelled step relation. The rules here are the ones
every system-level result of the development goes through: an invariant from a step lemma, the
runs that keep to a condition on their steps, and a forward simulation.
-/

set_option autoImplicit false

/-- A labelled transition system: its initial states and its steps. -/
structure TransSys (σ α : Type*) where
  init : σ → Prop
  step : σ → α → σ → Prop

namespace TransSys
variable {σ α : Type*} {M : TransSys σ α} {s t : σ} {as : List α}

/-- `Run M s as t`: the labels `as`, taken in order from `s`, lead to `t`. -/
inductive Run (M : TransSys σ α) : σ → List α → σ → Prop
  | nil (s : σ) : Run M s [] s
  | cons {s s' t : σ} {a : α} {as : List α} : M.step s a s' → Run M s' as t → Run M s (a :: as) t

/-- The states some run from an initial state ends in. -/
inductive Reachable (M : TransSys σ α) : σ → Prop
  | init {s : σ} : M.init s → Reachable M s
  | step {s s' : σ} {a : α} : Reachable M s → M.step s a s' → Reachable M s'

/-- The system with the same states that only takes the steps meeting `C`, a condition on the
state before the step and on its label. -/
def restrict (M : TransSys σ α) (C : σ → α → Prop) : TransSys σ α where
  init := M.init
  step := fun s a s' => C s a ∧ M.step s a s'

theorem Reachable.invariant {I : σ → Prop} (h : M.Reachable s) (hinit : ∀ s, M.init s → I s)
    (hstep : ∀ s a s', I s → M.step s a s' → I s') : I s := by
  induction h with
  | init h0 => exact hinit _ h0
  | step _ hs ih => exact hstep _ _ _ ih hs

theorem Reachable.unrestrict {C : σ → α → Prop} (h : (M.restrict C).Reachable s) :
    M.Reachable s := by
  induction h with
  | init h0 => exact .init h0
  | step _ hs ih => exact ih.step hs.2

theorem Reachable.run (h : M.Reachable s) (hr : M.Run s as t) : M.Reachable t := by
  induction hr with
  | nil => exact h
  | cons hs _ ih => exact ih (h.step hs)

theorem Run.append {u : σ} {bs : List α} (h : M.Run s as t) (h' : M.Run t bs u) :
    M.Run s (as ++ bs) u := by
  induction h with
  | nil => exact h'
  | cons hs _ ih => exact Run.cons hs (ih h')

theorem Run.snoc {u : σ} {a : α} (h : M.Run s as t) (hs : M.step t a u) : M.Run s (as ++ [a]) u :=
  h.append (Run.cons hs (Run.nil u))

/-! ## Executing a list of labels -/

/-- For the numerals of `Fin 2` in lists of labels. -/
instance two_neZero : @NeZero Nat Zero.ofOfNat0 2 := ⟨by decide⟩

def exec (f : σ → α → Option σ) : σ → List α → Option σ
  | s, [] => some s
  | s, a :: as => (f s a).bind fun s' => exec f s' as

theorem Run.of_exec {f : σ → α → Option σ} (hf : ∀ s a s', f s a = some s' → M.step s a s')
    (h : exec f s as = some t) : M.Run s as t := by
  induction as generalizing s with
  | nil =>
    obtain rfl : s = t := by simpa [exec] using h
    exact .nil s
  | cons a as ih =>
    obtain ⟨s', hs, ht⟩ := Option.bind_eq_some_iff.mp h
    exact .cons (hf s a s' hs) (ih ht)

/-- Executing what need not be labels: it is enough that each of them takes some step. -/
theorem Reachable.of_steps {β : Type*} {f : σ → β → Option σ}
    (hf : ∀ s b s', f s b = some s' → ∃ a, M.step s a s') {bs : List β} (hs : M.Reachable s)
    (h : exec f s bs = some t) : M.Reachable t := by
  induction bs generalizing s with
  | nil =>
    cases h
    exact hs
  | cons b bs ih =>
    obtain ⟨s', hb, ht⟩ := Option.bind_eq_some_iff.mp h
    obtain ⟨a, ha⟩ := hf s b s' hb
    exact ih (hs.step ha) ht

/-- A run of the step function whose steps all meet `C`. -/
theorem Run.of_exec_restrict {C : σ → α → Prop} [∀ s a, Decidable (C s a)] {f : σ → α → Option σ}
    (hf : ∀ s a s', f s a = some s' → M.step s a s')
    (h : exec (fun s a => if C s a then f s a else none) s as = some t) :
    (M.restrict C).Run s as t := by
  refine Run.of_exec ?_ h
  intro s a s' hstep
  split at hstep
  · next hC => exact ⟨hC, hf s a s' hstep⟩
  · cases hstep

theorem Reachable.of_exec {C : σ → α → Prop} [∀ s a, Decidable (C s a)] {f : σ → α → Option σ}
    (hf : ∀ s a s', f s a = some s' → M.step s a s') (h0 : M.init s)
    (h : exec (fun s a => if C s a then f s a else none) s as = some t) :
    (M.restrict C).Reachable t :=
  (Reachable.init (M := M.restrict C) h0).run (Run.of_exec_restrict hf h)

end TransSys
