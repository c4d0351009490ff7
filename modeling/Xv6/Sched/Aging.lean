import Xv6.Sched.QueueMove
import Mathlib.Data.Fintype.Card

/-! # Aging and the sizes of the queues

The aging loop moves a process one level up by `remove_queue` and `push_queue`. `remove_queue`
closes the gap in the row but leaves `size` and `back` of the level as they were, so a consistent
state is never left consistent: the level has as many entries as its size says, and one of them is
gone.
-/

namespace Xv6.Sched
set_option autoImplicit false

/-- The rows hold the processes their sizes say, with nothing beyond, and the fields of the
processes agree with the rows. -/
structure Consistent (m : Mem) : Prop where
  back : ∀ q < NQUEUE, m.queue.back q = m.queue.size q
  slot : ∀ q < NQUEUE, ∀ i < NPROC, m.queue.slot q i ≠ none ↔ (i : ℤ) < m.queue.size q
  nonneg : ∀ q < NQUEUE, 0 ≤ m.queue.size q
  le : ∀ q < NQUEUE, m.queue.size q ≤ NPROC
  distinct : ∀ q < NQUEUE, ∀ i < NPROC, ∀ j < NPROC, ∀ p, m.queue.slot q i = some p →
    m.queue.slot q j = some p → i = j
  members : ∀ q < NQUEUE, ∀ p, (∃ i < NPROC, m.queue.slot q i = some p) ↔
    (m.proc p).inQueue = true ∧ (m.proc p).queuePosition = q

def Before (m : Mem) (q : ℕ) (x y : Slot) : Prop :=
  ∃ i j, i < j ∧ j < NPROC ∧ m.queue.slot q i = some x ∧ m.queue.slot q j = some y

/-- `remove_queue(p, q); push_queue(p, q - 1);` -/
def age (p : Slot) (q : ℕ) (m : Mem) : Outcome Failure Mem :=
  pushQueue p (q - 1) (removeQueue p q m)

/-- What the move of `p` from queue `q` should do: the queues are consistent again, `p` is the last
in the queue above and no longer in its own, and the others keep their queues and their order. -/
def AgesWell (m : Mem) (p : Slot) (q : ℕ) : Prop :=
  ∃ m', age p q m = .ok m' ∧ Consistent m' ∧
    m'.queue.slot (q - 1) (m'.queue.size (q - 1) - 1).toNat = some p ∧
    (∀ i < NPROC, m'.queue.slot q i ≠ some p) ∧
    ∀ x, x ≠ p → (m'.proc x).inQueue = (m.proc x).inQueue ∧
      (m'.proc x).queuePosition = (m.proc x).queuePosition ∧
      ∀ y, y ≠ p → ∀ r < NQUEUE, Before m r x y → Before m' r x y

def marked (m : Mem) (q : ℕ) : Finset Slot :=
  Finset.univ.filter fun p => (m.proc p).inQueue = true ∧ (m.proc p).queuePosition = q

theorem Consistent.card_marked {m : Mem} (h : Consistent m) {q : ℕ} (hq : q < NQUEUE) :
    ((marked m q).card : ℤ) = m.queue.size q := by
  have hnonneg := h.nonneg q hq
  have hle := h.le q hq
  have hfilled : ∀ i ∈ Finset.range (m.queue.size q).toNat, ∃ p, m.queue.slot q i = some p := by
    intro i hi
    have hlt := Finset.mem_range.mp hi
    exact Option.ne_none_iff_exists'.mp ((h.slot q hq i (by omega)).mpr (by omega))
  have : Nonempty Slot := ⟨initproc⟩
  choose! f hf using hfilled
  have hcard : (Finset.range (m.queue.size q).toNat).card = (marked m q).card := by
    apply Finset.card_nbij f
    · intro i hi
      have hlt := Finset.mem_range.mp hi
      refine Finset.mem_coe.mpr (Finset.mem_filter.mpr ⟨Finset.mem_univ _, ?_⟩)
      exact (h.members q hq (f i)).mp ⟨i, by omega, hf i hi⟩
    · intro i hi j hj hij
      have hi' := Finset.mem_range.mp hi
      have hj' := Finset.mem_range.mp hj
      exact h.distinct q hq i (by omega) j (by omega) (f i) (hf i hi) (hij ▸ hf j hj)
    · intro p hp
      have hmarked := (Finset.mem_filter.mp (Finset.mem_coe.mp hp)).2
      obtain ⟨i, hi, hslot⟩ := (h.members q hq p).mpr hmarked
      have hlt : (i : ℤ) < m.queue.size q := (h.slot q hq i hi).mp (by rw [hslot]; simp)
      have hmem : i ∈ Finset.range (m.queue.size q).toNat := Finset.mem_range.mpr (by omega)
      refine ⟨i, hmem, ?_⟩
      exact Option.some.inj ((hf i hmem).symm.trans hslot)
  rw [Finset.card_range] at hcard
  omega

theorem age_marked {m m' : Mem} {p : Slot} {q : ℕ} (h0 : 0 < q) (hage : age p q m = .ok m') :
    m'.queue.size q = m.queue.size q ∧ marked m' q = (marked m q).erase p := by
  rw [age, pushQueue] at hage
  split at hage
  · cases hage
    have hsize : (removeQueue p q m).queue.size q = m.queue.size q := by
      rw [removeQueue]
      split <;> rfl
    constructor
    · dsimp only [Queues.setRow]
      rw [Function.update_of_ne (by omega)]
      exact hsize
    · ext x
      rw [Finset.mem_erase, marked, marked, Finset.mem_filter, Finset.mem_filter]
      by_cases hx : x = p
      · subst hx
        simp only [Mem.set_proc_self, Finset.mem_univ, true_and]
        constructor
        · rintro hpos
          omega
        · rintro ⟨hne, -⟩
          exact absurd rfl hne
      · simp [hx, removeQueue_proc]
  · cases hage

/-- No move of a queued process to the queue above goes well. -/
theorem never_ages_well {m : Mem} {p : Slot} {q : ℕ} (h : Consistent m) (hq : q < NQUEUE)
    (h0 : 0 < q) (hin : (m.proc p).inQueue = true) (hpos : (m.proc p).queuePosition = q) :
    ¬ AgesWell m p q := by
  rintro ⟨m', hage, h', -⟩
  obtain ⟨hsize, hmarked⟩ := age_marked h0 hage
  have hp : p ∈ marked m q := by
    rw [marked, Finset.mem_filter]
    exact ⟨Finset.mem_univ p, hin, hpos⟩
  have hcard := h.card_marked hq
  have hcard' := h'.card_marked hq
  rw [hmarked, Finset.card_erase_of_mem hp, hsize, ← hcard] at hcard'
  have hone : 0 < (marked m q).card := Finset.card_pos.mpr ⟨p, hp⟩
  omega

/-! ## One process at level 1 -/

def oneQueued : Mem where
  proc := fun p =>
    if p = initproc then { Proc.zero with inQueue := true, queuePosition := 1 } else .zero
  nextpid := 2
  ticks := 0
  queue :=
    { slot := fun q i => if q = 1 ∧ i = 0 then some initproc else none
      size := fun q => if q = 1 then 1 else 0
      back := fun q => if q = 1 then 1 else 0 }

theorem consistent_oneQueued : Consistent oneQueued := by
  refine ⟨fun q _ => rfl, ?_, ?_, ?_, ?_, ?_⟩
  · intro q _ i _
    by_cases hq : q = 1
    · by_cases hi : i = 0 <;> simp [oneQueued, hq, hi]
    · simp [oneQueued, hq]
  · intro q _
    by_cases hq : q = 1 <;> simp [oneQueued, hq]
  · intro q _
    by_cases hq : q = 1
    · simp [oneQueued, hq, NPROC]
    · simp [oneQueued, hq]
  · intro q _ i _ j _ p hi hj
    simp only [oneQueued, Option.ite_none_right_eq_some] at hi hj
    omega
  · intro q _ p
    by_cases hp : p = initproc
    · subst hp
      simp only [oneQueued, if_pos, true_and]
      constructor
      · rintro ⟨i, -, hi⟩
        rw [Option.ite_none_right_eq_some] at hi
        exact hi.1.1.symm
      · rintro rfl
        exact ⟨0, by decide, by simp⟩
    · simp only [oneQueued, if_neg hp, Proc.zero, Bool.false_eq_true, false_and, iff_false]
      rintro ⟨i, -, hi⟩
      rw [Option.ite_none_right_eq_some] at hi
      exact hp (Option.some.inj hi.2).symm

theorem never_ages_well_oneQueued : Consistent oneQueued ∧ ¬ AgesWell oneQueued initproc 1 :=
  ⟨consistent_oneQueued, never_ages_well consistent_oneQueued (by decide) (by decide) rfl rfl⟩

/-- After the move queue 1 counts one process and holds none: the next `pop_queue(1)` goes through a
null pointer. -/
theorem pop_after_age_faults : Consistent oneQueued ∧
    ∃ m, age initproc 1 oneQueued = .ok m ∧ m.queue.size 1 = 1 ∧ m.queue.slot 1 0 = none ∧
      ¬ Consistent m ∧ popQueue 1 m = .fail .fault := by
  have hage : (age initproc 1 oneQueued).result.map (fun m => (m.queue.size 1, m.queue.slot 1 0)) =
      some (1, none) := by decide +kernel
  obtain ⟨m, hm, h⟩ := Option.map_eq_some_iff.mp hage
  obtain ⟨hsize, hslot⟩ := Prod.mk.inj h
  refine ⟨consistent_oneQueued, m, Outcome.result_eq_some.mp hm, hsize, hslot, ?_, ?_⟩
  · intro hc
    exact (hc.slot 1 (by decide) 0 (by decide)).mpr (by rw [hsize]; decide) hslot
  · simp only [popQueue, hslot]

end Xv6.Sched
