import Xv6.Sched.State

/-! # The MLFQ run queues

`initialize_queue`, `push_queue`, `pop_queue` and `remove_queue` of `kernel/queue.c`;
`queue_struct.max_ticks` is constant once it is set. An index outside `sched_queue`
and a null process pointer are faults.
-/

namespace Xv6.Sched
set_option autoImplicit false
open Function (update)

def NQUEUE : ℕ := 5

def maxTicks (q : ℕ) : ℕ := 2 ^ q

/-- The loop that closes a gap: from index `i` on, each entry moves one down until an empty entry
has moved. `n` entries are left to look at. -/
def shiftDown (f : ℕ → Option Slot) : ℕ → ℕ → (ℕ → Option Slot)
  | _, 0 => f
  | i, n + 1 =>
    let f' := update f (i - 1) (f i)
    if f i = none then f' else shiftDown f' (i + 1) n

def Queues.setRow (k : Queues) (q : ℕ) (row : ℕ → Option Slot) : Queues :=
  { k with slot := update k.slot q row }

def initializeQueue (m : Mem) : Mem :=
  { m with queue := ⟨fun _ _ => none, fun _ => 0, fun _ => 0⟩ }

def pushQueue (p : Slot) (q : ℕ) (m : Mem) : Outcome Failure Mem :=
  let k := m.queue
  if q < NQUEUE ∧ 0 ≤ k.back q ∧ k.back q < NPROC then
    let k := k.setRow q (update (k.slot q) (k.back q).toNat (some p))
    .ok { m.set p fun x => { x with
            ticksUsed := 0, currWaitTime := 0, inQueue := true, queuePosition := q } with
      queue := { k with
        back := update k.back q (k.back q + 1)
        size := update k.size q (k.size q + 1) } }
  else .fail .fault

def popQueue (q : ℕ) (m : Mem) : Outcome Failure (Slot × Mem) :=
  let k := m.queue
  match k.slot q 0 with
  | none => .fail .fault
  | some p =>
    let k := k.setRow q (shiftDown (update (k.slot q) 0 none) 1 (NPROC - 1))
    .ok (p, { m.set p fun x => { x with inQueue := false } with
      queue := { k with
        back := update k.back q (k.back q - 1)
        size := update k.size q (k.size q - 1) } })

def lastIndex (row : ℕ → Option Slot) (p : Slot) : ℕ → Option ℕ
  | 0 => none
  | n + 1 => if row n = some p then some n else lastIndex row p n

def removeQueue (p : Slot) (q : ℕ) (m : Mem) : Mem :=
  let row := m.queue.slot q
  match lastIndex row p NPROC with
  | none => m
  | some found =>
    let row := shiftDown (update row found none) (found + 1) (NPROC - 1 - found)
    { m with queue := m.queue.setRow q row }

/-! ## The queue calls leave the scheduling states alone -/

variable {p : Slot} {q : ℕ}

theorem pushQueue_state {m m' : Mem} (h : pushQueue p q m = .ok m') (r : Slot) :
    (m'.proc r).state = (m.proc r).state := by
  simp only [pushQueue] at h
  split at h
  · cases h
    by_cases hr : r = p
    · subst hr
      simp [Mem.set]
    · simp [Mem.set, hr]
  · cases h

theorem popQueue_state {m m' : Mem} (h : popQueue q m = .ok (p, m')) (r : Slot) :
    (m'.proc r).state = (m.proc r).state := by
  simp only [popQueue] at h
  split at h
  · cases h
  · next p' _ =>
    obtain ⟨rfl, rfl⟩ := Prod.mk.inj (Outcome.ok.inj h)
    by_cases hr : r = p'
    · subst hr
      simp [Mem.set]
    · simp [Mem.set, hr]

theorem popQueue_head {m m' : Mem} (h : popQueue q m = .ok (p, m')) :
    m.queue.slot q 0 = some p := by
  simp only [popQueue] at h
  split at h
  · cases h
  · next p' hp' =>
    obtain ⟨rfl, -⟩ := Prod.mk.inj (Outcome.ok.inj h)
    exact hp'

theorem removeQueue_proc (p : Slot) (q : ℕ) (m : Mem) : (removeQueue p q m).proc = m.proc := by
  simp only [removeQueue]
  split <;> rfl

end Xv6.Sched
