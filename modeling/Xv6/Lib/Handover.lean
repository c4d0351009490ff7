import Mathlib.Data.Option.Basic

/-! # Handing a task's lock over across a context switch

Each processor alternates between a dispatcher and one task at a time. A switch into or out of a
task happens with the task's own lock held: the dispatcher takes the lock and the task releases
it, and later the task takes it and the dispatcher releases it. Between two atomic steps a
processor holds at most one lock.

The protocol is described by what each processor is doing (`Act`), by the holder of each lock,
and by which tasks are marked as running. `Inv` is its invariant, and there is one rule for each
way a processor can move.
-/

set_option autoImplicit false
open Function (update update_self update_of_ne)

namespace Handover
variable {H P L : Type*}

/-- What a processor is doing between two atomic steps. -/
inductive Act (P L : Type*) where
  | idle (l : Option L)
  | enter (p : P)
  | exec (p : P) (l : Option L)
  | resumed (p : P)
  | leaving (p : P)
  | back (p : P)

namespace Act

def cur : Act P L → Option P
  | idle _ => none
  | enter p | exec p _ | resumed p | leaving p | back p => some p

def live : Act P L → Option P
  | enter p | exec p _ | resumed p => some p
  | idle _ | leaving _ | back _ => none

/-- The lock the processor holds; `own p` is the lock of task `p`. -/
def lock (own : P → L) : Act P L → Option L
  | idle l | exec _ l => l
  | enter p | resumed p | leaving p | back p => some (own p)

theorem cur_of_live {a : Act P L} {p : P} (h : a.live = some p) : a.cur = some p := by
  cases a <;> simp_all [live, cur]

theorem lock_of_not_live {own : P → L} {a : Act P L} {p : P} (hc : a.cur = some p)
    (hl : a.live ≠ some p) : a.lock own = some (own p) := by
  cases a <;> simp_all [live, cur, lock]

end Act

def handLock [DecidableEq L] (holder : L → Option H) (h : H) (old new : Option L) :
    L → Option H :=
  fun l => if new = some l then some h else if old = some l then none else holder l

section HandLock
variable [DecidableEq L] {holder : L → Option H} {h : H} {l l' : L}

theorem handLock_acquire : handLock holder h none (some l) = update holder l (some h) := by
  funext k
  by_cases hk : k = l
  · simp [handLock, hk]
  · simp [handLock, hk, Ne.symm hk]

theorem handLock_release : handLock holder h (some l) none = update holder l none := by
  funext k
  by_cases hk : k = l
  · simp [handLock, hk]
  · simp [handLock, hk, Ne.symm hk]

theorem handLock_swap (hne : l ≠ l') : handLock holder h (some l) (some l') =
    update (update holder l' (some h)) l none := by
  funext k
  by_cases hk : k = l
  · subst hk
    simp [handLock, hne.symm]
  · by_cases hk' : k = l'
    · subst hk'
      simp [handLock, hk]
    · simp [handLock, hk, hk', Ne.symm hk, Ne.symm hk']

theorem handLock_self {o : Option L} (ho : ∀ l, o = some l → holder l = some h) :
    handLock holder h o o = holder := by
  funext k
  by_cases hk : o = some k
  · simp [handLock, hk, ho k hk]
  · simp [handLock, hk]

end HandLock

/-- The invariant: processors hold exactly the lock their activity says, no task is current on
two processors, and the running tasks are those that some processor keeps live. -/
structure Inv (own : P → L) (act : H → Act P L) (holder : L → Option H) (running : P → Prop) :
    Prop where
  lock : ∀ l h, holder l = some h ↔ (act h).lock own = some l
  uniq : ∀ h h' p, (act h).cur = some p → (act h').cur = some p → h = h'
  running_of_live : ∀ h p, (act h).live = some p → running p
  live_of_running : ∀ p, running p → ∃ h, (act h).live = some p

namespace Inv
variable {own : P → L} {act : H → Act P L} {holder : L → Option H} {running : P → Prop}

theorem congr {running' : P → Prop} (hI : Inv own act holder running)
    (h : ∀ p, running' p ↔ running p) : Inv own act holder running' := by
  obtain rfl : running' = running := funext fun p => propext (h p)
  exact hI

theorem not_cur (hI : Inv own act holder running) {g : H} {p : P} (hrun : ¬ running p)
    (hfree : holder (own p) ≠ some g) : (act g).cur ≠ some p := by
  intro hc
  have hlive : (act g).live ≠ some p := fun hl => hrun (hI.running_of_live g p hl)
  exact hfree ((hI.lock (own p) g).mpr (Act.lock_of_not_live hc hlive))

theorem not_running (hI : Inv own act holder running) {h : H} {p : P}
    (hc : (act h).cur = some p) (hl : (act h).live = none) : ¬ running p := by
  intro hr
  obtain ⟨g, hg⟩ := hI.live_of_running p hr
  obtain rfl := hI.uniq g h p (Act.cur_of_live hg) hc
  simp [hl] at hg

section Moves
variable [DecidableEq H] [DecidableEq L] {h : H} {a : Act P L} {p : P}

theorem handLock_iff (hI : Inv own act holder running)
    (hfree : ∀ l, a.lock own = some l → holder l = none ∨ holder l = some h) (l : L) (g : H) :
    handLock holder h ((act h).lock own) (a.lock own) l = some g ↔
      (update act h a g).lock own = some l := by
  by_cases hg : g = h
  · subst hg
    rw [update_self, handLock]
    by_cases hn : a.lock own = some l
    · simp [hn]
    · have hold := hI.lock l g
      by_cases ho : (act g).lock own = some l
      · simp [hn, ho]
      · simp [hn, ho, hold]
  · rw [update_of_ne hg, ← hI.lock l g, handLock]
    by_cases hn : a.lock own = some l
    · rcases hfree l hn with hf | hf
      · simp [hn, hf, Ne.symm hg]
      · simp [hn, hf]
    · by_cases ho : (act h).lock own = some l
      · have := (hI.lock l h).mpr ho
        simp [hn, ho, this, Ne.symm hg]
      · simp [hn, ho]

omit [DecidableEq L] in
theorem proj_update {X : Type*} (f : Act P L → X) (ha : f a = f (act h)) (g : H) :
    f (update act h a g) = f (act g) := by
  by_cases hg : g = h
  · rw [hg, update_self, ha]
  · rw [update_of_ne hg]

section
variable (hI : Inv own act holder running)
include hI

/-- A processor goes on with the same task, or with none, possibly with another lock. -/
theorem move (hcur : a.cur = (act h).cur) (hlive : a.live = (act h).live)
    (hfree : ∀ l, a.lock own = some l → holder l = none ∨ holder l = some h) :
    Inv own (update act h a)
      (handLock holder h ((act h).lock own) (a.lock own)) running := by
  have hc := proj_update Act.cur hcur
  have hl := proj_update Act.live hlive
  refine ⟨hI.handLock_iff hfree, ?_, ?_, ?_⟩
  · intro g g' p hg hg'
    rw [hc] at hg hg'
    exact hI.uniq g g' p hg hg'
  · intro g p hg
    rw [hl] at hg
    exact hI.running_of_live g p hg
  · intro p hp
    obtain ⟨g, hg⟩ := hI.live_of_running p hp
    exact ⟨g, by rw [hl, hg]⟩

theorem enter (hidle : (act h).cur = none) (hrun : ¬ running p)
    (hfree : holder (own p) = none ∨ holder (own p) = some h) : Inv own (update act h (.enter p))
      (handLock holder h ((act h).lock own) (some (own p))) (fun q => q = p ∨ running q) := by
  have hother : ∀ g, g ≠ h → (act g).cur ≠ some p := by
    intro g hg
    refine hI.not_cur hrun ?_
    rcases hfree with hf | hf <;> simp [hf, Ne.symm hg]
  refine ⟨hI.handLock_iff (a := .enter p) ?_, ?_, ?_, ?_⟩
  · intro l hl
    cases hl
    exact hfree
  · intro g g' q hg hg'
    by_cases e : g = h <;> by_cases e' : g' = h
    · rw [e, e']
    · subst e
      rw [update_self] at hg
      rw [update_of_ne e'] at hg'
      cases hg
      exact absurd hg' (hother g' e')
    · subst e'
      rw [update_self] at hg'
      rw [update_of_ne e] at hg
      obtain rfl : p = q := Option.some.inj hg'
      exact absurd hg (hother g e)
    · rw [update_of_ne e] at hg
      rw [update_of_ne e'] at hg'
      exact hI.uniq g g' q hg hg'
  · intro g q hg
    by_cases e : g = h
    · subst e
      rw [update_self] at hg
      exact .inl (Option.some.inj hg).symm
    · rw [update_of_ne e] at hg
      exact .inr (hI.running_of_live g q hg)
  · rintro q (rfl | hq)
    · exact ⟨h, by rw [update_self]; rfl⟩
    · obtain ⟨g, hg⟩ := hI.live_of_running q hq
      have e : g ≠ h := by
        rintro rfl
        have := Act.cur_of_live hg
        simp [hidle] at this
      exact ⟨g, by rw [update_of_ne e, hg]⟩

theorem leave {l : Option L} (hexec : act h = .exec p l)
    (hfree : holder (own p) = none ∨ holder (own p) = some h) :
    Inv own (update act h (.leaving p)) (handLock holder h l (some (own p)))
      (fun q => q ≠ p ∧ running q) := by
  have hcur : (act h).cur = some p := by rw [hexec]; rfl
  have hold : (act h).lock own = l := by rw [hexec]; rfl
  refine ⟨hold ▸ hI.handLock_iff (a := .leaving p) ?_, ?_, ?_, ?_⟩
  · intro l' hl'
    obtain rfl : own p = l' := Option.some.inj hl'
    exact hfree
  · have hc := proj_update (a := .leaving p) Act.cur hcur.symm
    intro g g' q hg hg'
    rw [hc] at hg hg'
    exact hI.uniq g g' q hg hg'
  · intro g q hg
    by_cases e : g = h
    · subst e
      rw [update_self] at hg
      simp [Act.live] at hg
    · rw [update_of_ne e] at hg
      refine ⟨?_, hI.running_of_live g q hg⟩
      rintro rfl
      exact e (hI.uniq g h q (Act.cur_of_live hg) hcur)
  · rintro q ⟨hqp, hq⟩
    obtain ⟨g, hg⟩ := hI.live_of_running q hq
    have e : g ≠ h := by
      rintro rfl
      have := Act.cur_of_live hg
      exact hqp (Option.some.inj (this.symm.trans hcur))
    exact ⟨g, by rw [update_of_ne e, hg]⟩

theorem drop (hback : act h = .back p) :
    Inv own (update act h (.idle none)) (handLock holder h (some (own p)) none)
      running := by
  have hold : (act h).lock own = some (own p) := by rw [hback]; rfl
  have hl := proj_update (a := .idle none) Act.live (show none = (act h).live by rw [hback]; rfl)
  refine ⟨hold ▸ hI.handLock_iff (a := .idle none) (by simp [Act.lock]), ?_, ?_, ?_⟩
  · have hcur : ∀ g q, (update act h (.idle none) g).cur = some q →
        (act g).cur = some q := by
      intro g q hg
      by_cases e : g = h
      · rw [e, update_self] at hg
        simp [Act.cur] at hg
      · rwa [update_of_ne e] at hg
    intro g g' q hg hg'
    exact hI.uniq g g' q (hcur g q hg) (hcur g' q hg')
  · intro g q hg
    rw [hl] at hg
    exact hI.running_of_live g q hg
  · intro q hq
    obtain ⟨g, hg⟩ := hI.live_of_running q hq
    exact ⟨g, by rw [hl, hg]⟩

end

end Moves
end Inv
end Handover
