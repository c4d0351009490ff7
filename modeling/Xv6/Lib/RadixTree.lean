import Mathlib.Data.List.Induction
import Mathlib.Order.Nat

/-! # Trees of table pages in a memory

A memory holds entries by page and index, and an entry may lead to another page. The pages that
lists of at most `n` indices lead to from a root form a tree if no page is reached by two lists.
Then writing one entry changes what one list of indices leads to, and nothing else.
-/

namespace RadixTree
set_option autoImplicit false

section
variable {P I E : Type*} (next : E → Option P)

def node (m : P → I → E) : P → List I → Option P
  | p, [] => some p
  | p, i :: π => (next (m p i)).bind fun q => node m q π

def Unshared (m : P → I → E) (root : P) (n : ℕ) : Prop :=
  ∀ π σ p, π.length ≤ n → σ.length ≤ n → node next m root π = some p →
    node next m root σ = some p → π = σ

def entry (m : P → I → E) (root : P) (π : List I) (i : I) : Option E :=
  (node next m root π).map fun p => m p i

def setEntry [DecidableEq P] [DecidableEq I] (m : P → I → E) (p : P) (i : I) (e : E) : P → I → E :=
  Function.update m p (Function.update (m p) i e)

end

section
variable {P I E : Type*} {next : E → Option P} {m m' : P → I → E} {root p q : P} {n : ℕ}
  {π ρ σ : List I} {i : I}

theorem node_append (p : P) (π σ : List I) :
    node next m p (π ++ σ) = (node next m p π).bind fun q => node next m q σ := by
  induction π generalizing p with
  | nil => rfl
  | cons i π ih =>
    simp only [List.cons_append, node, Option.bind_assoc]
    congr 1
    funext q
    exact ih q

theorem node_snoc (p : P) (π : List I) (i : I) :
    node next m p (π ++ [i]) = (node next m p π).bind fun q => next (m q i) := by
  rw [node_append]
  congr 1
  funext q
  exact Option.bind_fun_some _

theorem node_congr (h : ∀ τ q j, τ ++ [j] <+: σ → node next m root τ = some q → m' q j = m q j) :
    node next m' root σ = node next m root σ := by
  induction σ using List.reverseRecOn with
  | nil => rfl
  | append_singleton σ j ih =>
    rw [node_snoc, node_snoc, ih fun τ q i hτ => h τ q i (hτ.trans (List.prefix_append σ [j]))]
    cases hq : node next m root σ with
    | none => rfl
    | some q => simp only [Option.bind_some, h σ q j (List.prefix_refl _) hq]

/-! ## Writing a page outside of the tree -/

theorem node_of_outside (h : ∀ τ r, τ.length ≤ n → node next m root τ = some r → m' r = m r)
    (hσ : σ.length ≤ n) : node next m' root σ = node next m root σ := by
  apply node_congr
  intro τ r j hτ hr
  have hshort : τ.length + 1 ≤ σ.length := by simpa using hτ.length_le
  rw [h τ r (by omega) hr]

theorem Unshared.of_outside (hu : Unshared next m root n)
    (h : ∀ τ r, τ.length ≤ n → node next m root τ = some r → m' r = m r) :
    Unshared next m' root n := by
  intro π σ r hπ hσ
  rw [node_of_outside h hπ, node_of_outside h hσ]
  exact hu π σ r hπ hσ

theorem entry_of_outside (h : ∀ τ r, τ.length ≤ n → node next m root τ = some r → m' r = m r)
    (hσ : σ.length ≤ n) (j : I) : entry next m' root σ j = entry next m root σ j := by
  unfold entry
  rw [node_of_outside h hσ]
  cases hr : node next m root σ with
  | none => rfl
  | some r => rw [Option.map_some, Option.map_some, h σ r hσ hr]

/-! ## A new page -/

/-- An empty page `q` that is not in the tree is linked at index `i` of the page that `ρ` leads to.
-/
structure Grows (next : E → Option P) (m : P → I → E) (root : P) (n : ℕ) (ρ : List I) (i : I)
    (q : P) (blank : E) (m' : P → I → E) : Prop where
  depth : ρ.length < n
  fresh : ∀ σ, σ.length ≤ n → node next m root σ ≠ some q
  missing : node next m root (ρ ++ [i]) = none
  blank_next : next blank = none
  blank_page : ∀ j, m' q j = blank
  link : ∃ p, node next m root ρ = some p ∧ next (m' p i) = some q ∧
    ∀ r j, r ≠ q → ¬ (r = p ∧ j = i) → m' r j = m r j

namespace Grows
variable {blank : E} [DecidableEq I]

section
variable (h : Grows next m root n ρ i q blank m') (hu : Unshared next m root n)
include h hu

theorem node_eq (hσ : σ.length ≤ n) :
    node next m' root σ = if σ = ρ ++ [i] then some q else node next m root σ := by
  obtain ⟨p, hp, hlink, hkeep⟩ := h.link
  have hdepth := h.depth
  -- What a list of indices that does not pass the new page leads to.
  have hother : ∀ τ, τ.length ≤ n → ¬ ρ ++ [i] <+: τ →
      node next m' root τ = node next m root τ := by
    intro τ hτ hnot
    apply node_congr
    intro υ r j hυ hr
    have hshort : υ.length + 1 ≤ τ.length := by simpa using hυ.length_le
    apply hkeep
    · rintro rfl
      exact h.fresh υ (by omega) hr
    · rintro ⟨rfl, rfl⟩
      obtain rfl := hu υ ρ r (by omega) (by omega) hr hp
      exact hnot hυ
  have hρ : node next m' root ρ = some p := by
    rw [hother ρ (by omega), hp]
    intro hpre
    have := hpre.length_le
    rw [List.length_append, List.length_singleton] at this
    omega
  split
  · next heq =>
    rw [heq, node_snoc, hρ, Option.bind_some, hlink]
  · next hne =>
    by_cases hpre : ρ ++ [i] <+: σ
    · -- Below the new page there is nothing yet.
      obtain ⟨τ, rfl⟩ := hpre
      cases τ with
      | nil => exact absurd (List.append_nil _) hne
      | cons j τ =>
        rw [node_append root (ρ ++ [i]), node_append root (ρ ++ [i]), h.missing, node_snoc, hρ,
          Option.bind_some, hlink, Option.bind_some, node, h.blank_page, h.blank_next]
        rfl
    · exact hother σ hσ hpre

theorem unshared : Unshared next m' root n := by
  intro π σ r hπ hσ hr hr'
  rw [h.node_eq hu hπ] at hr
  rw [h.node_eq hu hσ] at hr'
  split at hr <;> split at hr'
  · next h1 h2 => rw [h1, h2]
  · cases hr
    exact absurd hr' (h.fresh σ hσ)
  · cases hr'
    exact absurd hr (h.fresh π hπ)
  · exact hu π σ r hπ hσ hr hr'

theorem entry_eq (hσ : σ.length = n) (j : I) : entry next m' root σ j =
      if σ = ρ ++ [i] then some blank else entry next m root σ j := by
  unfold entry
  rw [h.node_eq hu hσ.le]
  split
  · rw [Option.map_some, h.blank_page]
  · cases hr : node next m root σ with
    | none => rfl
    | some r =>
      obtain ⟨p, hp, -, hkeep⟩ := h.link
      have hdepth := h.depth
      rw [Option.map_some, Option.map_some, hkeep]
      · rintro rfl
        exact h.fresh σ hσ.le hr
      · rintro ⟨rfl, -⟩
        have := congrArg List.length (hu σ ρ r hσ.le (by omega) hr hp)
        omega

end

end Grows

/-! ## Writing a leaf entry -/

variable [DecidableEq P] [DecidableEq I]

theorem setEntry_self (m : P → I → E) (p : P) (i : I) (e : E) : setEntry m p i e p i = e := by
  simp [setEntry]

theorem setEntry_of_ne {e : E} {j : I} (h : q ≠ p ∨ j ≠ i) : setEntry m p i e q j = m q j := by
  unfold setEntry
  by_cases hq : q = p
  · subst hq
    rw [Function.update_self, Function.update_of_ne (h.resolve_left (not_not.mpr rfl))]
  · rw [Function.update_of_ne hq]

section
variable (hu : Unshared next m root n) (hρ : node next m root ρ = some p) (hlen : ρ.length = n)
include hu hρ hlen

theorem node_setEntry (i : I) (e : E) (hσ : σ.length ≤ n) :
    node next (setEntry m p i e) root σ = node next m root σ := by
  apply node_congr
  intro τ q j hτ hq
  have hshort : τ.length + 1 ≤ σ.length := by simpa using hτ.length_le
  apply setEntry_of_ne
  left
  rintro rfl
  have := congrArg List.length (hu τ ρ q (by omega) hlen.le hq hρ)
  omega

theorem Unshared.setEntry (i : I) (e : E) :
    Unshared next (RadixTree.setEntry m p i e) root n := by
  intro π σ q hπ hσ
  rw [node_setEntry hu hρ hlen i e hπ, node_setEntry hu hρ hlen i e hσ]
  exact hu π σ q hπ hσ

theorem entry_setEntry (i : I) (e : E) (hσ : σ.length = n) (j : I) :
    entry next (setEntry m p i e) root σ j =
      if σ = ρ ∧ j = i then some e else entry next m root σ j := by
  unfold entry
  rw [node_setEntry hu hρ hlen i e hσ.le]
  split
  · next h =>
    obtain ⟨rfl, rfl⟩ := h
    rw [hρ, Option.map_some, setEntry_self]
  · next h =>
    cases hq : node next m root σ with
    | none => rfl
    | some q =>
      rw [Option.map_some, Option.map_some, setEntry_of_ne]
      by_contra hboth
      rw [not_or, not_not, not_not] at hboth
      obtain ⟨rfl, rfl⟩ := hboth
      exact h ⟨hu σ ρ q hσ.le hlen.le hq hρ, rfl⟩

end

end
end RadixTree
