import Xv6.Sched.Queue

/-! # The MLFQ queues as rows of processes

A row of `sched_queue` holds processes in the slots below its size. A queue call changes one row and
the queue fields of one process: `QueueInv` says that a process whose `in_queue` is 1 is stored in
its row, and it is kept by pushes and pops.
-/

namespace Xv6.Sched
set_option autoImplicit false
open Function (update update_self update_of_ne)

/-! ## Rows -/

/-- Slots below `n`, the size and the back index of a row, hold processes. A pop of a full row
leaves its last entry behind, so nothing is said about the slots above. -/
structure RowOk (k : Queues) (q : ℕ) : Prop where
  back : k.back q = k.size q
  le : k.size q ≤ NPROC
  some : ∀ i : ℕ, (i : ℤ) < k.size q → k.slot q i ≠ none

def Queues.Stores (k : Queues) (q : ℕ) (p : Slot) : Prop :=
  ∃ i : ℕ, (i : ℤ) < k.size q ∧ k.slot q i = some p

variable {i q : ℕ}

theorem shiftDown_below (f : ℕ → Option Slot) (n : ℕ) {j : ℕ} (hi : 0 < i) (hj : j + 1 < i) :
    shiftDown f i n j = f j := by
  induction n generalizing f i with
  | zero => rfl
  | succ n ih =>
    have hne : j ≠ i - 1 := by omega
    rw [shiftDown]
    split
    · rw [update_of_ne hne]
    · rw [ih _ (by omega) (by omega), update_of_ne hne]

theorem shiftDown_moved (f : ℕ → Option Slot) (n : ℕ) {j : ℕ} (hi : 0 < i) (hij : i ≤ j)
    (hj : j < i + n) (hsome : ∀ k, i ≤ k → k ≤ j → f k ≠ none) :
    shiftDown f i n (j - 1) = f j := by
  induction n generalizing f i with
  | zero => omega
  | succ n ih =>
    have hhead : f i ≠ none := hsome i le_rfl hij
    rw [shiftDown]
    rw [if_neg hhead]
    have hkeep : ∀ k, i ≤ k → update f (i - 1) (f i) k = f k := by
      intro k hk
      rw [update_of_ne (by omega)]
    by_cases hlast : j = i
    · -- the entry has just been moved, and later iterations write above it
      subst hlast
      rw [shiftDown_below _ _ (by omega) (by omega), update_self]
    · rw [ih _ (by omega) (by omega) (by omega), hkeep j hij]
      intro k hk hkj
      rw [hkeep k (by omega)]
      exact hsome k (by omega) hkj

/-! ## What the queue calls do to a consistent state -/

/-- The rows are well formed, and a process whose `in_queue` is 1 is stored in its row. -/
structure QueueInv (m : Mem) : Prop where
  row : ∀ q, RowOk m.queue q
  stored : ∀ p, (m.proc p).inQueue = true → m.queue.Stores (m.proc p).queuePosition p

/-- The queues are as before, and no process has been marked as queued or moved. -/
structure QueueKeep (m m' : Mem) : Prop where
  queue : m'.queue = m.queue
  proc : ∀ p, (m'.proc p).inQueue = true →
    (m.proc p).inQueue = true ∧ (m'.proc p).queuePosition = (m.proc p).queuePosition

theorem QueueKeep.trans {m1 m2 m3 : Mem} (h : QueueKeep m1 m2) (h' : QueueKeep m2 m3) :
    QueueKeep m1 m3 := by
  refine ⟨h'.queue.trans h.queue, ?_⟩
  intro p hp
  obtain ⟨hp, hpos'⟩ := h'.proc p hp
  obtain ⟨hp, hpos⟩ := h.proc p hp
  exact ⟨hp, hpos'.trans hpos⟩

theorem QueueKeep.set (m : Mem) (p : Slot) {f : Proc → Proc}
    (hf : ∀ x, (f x).inQueue = true → x.inQueue = true ∧ (f x).queuePosition = x.queuePosition) :
    QueueKeep m (m.set p f) := by
  refine ⟨rfl, ?_⟩
  intro q hq
  by_cases hqp : q = p
  · subst hqp
    rw [Mem.set_proc_self] at hq ⊢
    exact hf _ hq
  · rw [Mem.set_proc_of_ne _ _ hqp] at hq ⊢
    exact ⟨hq, rfl⟩

theorem QueueInv.keep {m m' : Mem} (h : QueueInv m) (hm : QueueKeep m m') : QueueInv m' := by
  constructor
  · rw [hm.queue]
    exact h.row
  · intro p hp
    obtain ⟨hp, hpos⟩ := hm.proc p hp
    rw [hm.queue, hpos]
    exact h.stored p hp

theorem QueueInv.push {m m' : Mem} {p : Slot} (h : QueueInv m) (hpush : pushQueue p q m = .ok m') :
    QueueInv m' := by
  simp only [pushQueue] at hpush
  split at hpush
  · next hback =>
    obtain ⟨-, hlow, hhigh⟩ := hback
    cases hpush
    have hsize := (h.row q).back
    have hentry : ∀ i : ℕ, (i : ℤ) < m.queue.size q → i ≠ (m.queue.back q).toNat := by
      intro i hi
      omega
    constructor
    · intro r
      by_cases hr : r = q
      · subst hr
        refine ⟨?_, ?_, ?_⟩
        · simp [Queues.setRow, hsize]
        · simp only [Queues.setRow, update_self]
          omega
        · intro i hi
          simp only [Queues.setRow, update_self] at hi ⊢
          by_cases hlast : i = (m.queue.back r).toNat
          · rw [hlast, update_self]
            simp
          · rw [update_of_ne hlast]
            exact (h.row r).some i (by omega)
      · obtain ⟨hb, hle, hs⟩ := h.row r
        refine ⟨?_, ?_, ?_⟩ <;> simpa [Queues.setRow, hr]
    · intro r hr
      by_cases hrp : r = p
      · subst hrp
        simp only [Mem.set_proc_self]
        refine ⟨(m.queue.back q).toNat, ?_, ?_⟩
        · simp only [Queues.setRow, update_self]
          omega
        · simp [Queues.setRow]
      · simp only [Mem.set_proc_of_ne _ _ hrp] at hr ⊢
        obtain ⟨i, hi, hslot⟩ := h.stored r hr
        refine ⟨i, ?_, ?_⟩
        · by_cases hq : (m.proc r).queuePosition = q
          · rw [hq] at hi ⊢
            simp only [Queues.setRow, update_self]
            omega
          · simpa [Queues.setRow, hq] using hi
        · by_cases hq : (m.proc r).queuePosition = q
          · rw [hq] at hi hslot ⊢
            simpa [Queues.setRow, hentry i hi] using hslot
          · simpa [Queues.setRow, hq] using hslot
  · cases hpush

theorem popped_row {k : Queues} (h : RowOk k q) (hi : ((i + 1 : ℕ) : ℤ) < k.size q) :
    shiftDown (update (k.slot q) 0 none) 1 (NPROC - 1) i = k.slot q (i + 1) := by
  have hle := h.le
  have hmoved := shiftDown_moved (update (k.slot q) 0 none) (NPROC - 1) (i := 1)
    (j := i + 1) (by omega) (by omega) (by omega) (by
      intro r hr hri
      rw [update_of_ne (by omega)]
      exact h.some r (by omega))
  rw [Nat.add_sub_cancel, update_of_ne (by omega)] at hmoved
  exact hmoved

theorem QueueInv.pop {m m' : Mem} {p : Slot} (h : QueueInv m) (hpop : popQueue q m = .ok (p, m')) :
    QueueInv m' := by
  have hhead := popQueue_head hpop
  simp only [popQueue, hhead] at hpop
  obtain rfl := (Prod.mk.inj (Outcome.ok.inj hpop)).2
  have hrow := h.row q
  constructor
  · intro r
    by_cases hr : r = q
    · subst hr
      refine ⟨?_, ?_, ?_⟩
      · simp [Queues.setRow, hrow.back]
      · have hle := hrow.le
        simp only [Queues.setRow, update_self]
        omega
      · intro i hi
        simp only [Queues.setRow, update_self] at hi ⊢
        rw [popped_row hrow (by omega)]
        exact hrow.some (i + 1) (by omega)
    · obtain ⟨hb, hle, hs⟩ := h.row r
      refine ⟨?_, ?_, ?_⟩ <;> simpa [Queues.setRow, hr]
  · intro r hr
    have hrp : r ≠ p := by
      rintro rfl
      simp at hr
    simp only [Mem.set_proc_of_ne _ _ hrp] at hr ⊢
    obtain ⟨i, hi, hslot⟩ := h.stored r hr
    by_cases hq : (m.proc r).queuePosition = q
    · rw [hq] at hi hslot ⊢
      -- `r` is not the head, so its entry moves one down
      have hpos : i ≠ 0 := by
        rintro rfl
        exact hrp (Option.some.inj (hslot.symm.trans hhead))
      obtain ⟨j, rfl⟩ : ∃ j, i = j + 1 := ⟨i - 1, by omega⟩
      refine ⟨j, ?_, ?_⟩
      · simp only [Queues.setRow, update_self]
        omega
      · simp only [Queues.setRow, update_self]
        rw [popped_row hrow hi]
        exact hslot
    · exact ⟨i, by simpa [Queues.setRow, hq] using hi, by simpa [Queues.setRow, hq] using hslot⟩

end Xv6.Sched
