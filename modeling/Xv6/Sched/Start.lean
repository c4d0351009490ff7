import Mathlib.Data.Fintype.Basic
import Xv6.Sched.QueueMove

/-! # The MLFQ queues while the harts start

Every hart runs `main`: once hart 0 has set `started`, each of them calls `initialize_queue` at its
own time and enters `scheduler()`, while others may already be scheduling.
-/

namespace Xv6.Sched
set_option autoImplicit false

/-! ## `main` on every hart -/

/-- The kernel and the harts that have called `initialize_queue` and entered `scheduler()`. -/
structure Starting (H : Type) where
  kernel : State H
  up : H → Bool

inductive StartEvent (H : Type) where
  | initQueue (h : H)
  | run (e : Event H)

section
variable {H : Type} [DecidableEq H]

def startStep (s : Starting H) : StartEvent H → Outcome Failure (Starting H)
  | .initQueue h =>
    if s.up h then .blocked
    else pure { kernel := s.kernel.setMem initializeQueue, up := Function.update s.up h true }
  | .run e =>
    if s.up e.hart then do
      let k ← step .mlfq s.kernel e
      pure { s with kernel := k }
    else .blocked

def startSys (H : Type) [DecidableEq H] : TransSys (Starting H) (StartEvent H) where
  init := fun s => s = ⟨boot .mlfq H, fun _ => false⟩
  step := fun s e s' => startStep s e = .ok s'

/-- The step ages no process. -/
def StartEvent.NoAging (s : Starting H) : StartEvent H → Prop
  | .initQueue _ => True
  | .run e => Sched.NoAging s.kernel e

/-- The step ages no process, and `initialize_queue` is called while nothing is queued. -/
def StartEvent.Orderly (s : Starting H) : StartEvent H → Prop
  | .initQueue _ => ∀ p, (s.kernel.mem.proc p).inQueue = false
  | .run e => Sched.NoAging s.kernel e

theorem QueueInv.initializeQueue {m : Mem} (hm : ∀ p, (m.proc p).inQueue = false) :
    QueueInv (initializeQueue m) := by
  constructor
  · intro q
    refine ⟨rfl, ?_, ?_⟩
    · simp [Sched.initializeQueue]
    · intro i hi
      simp only [Sched.initializeQueue] at hi
      omega
  · intro p hp
    exact absurd hp (by simp [Sched.initializeQueue, hm p])

theorem queueInv_of_orderly {s : Starting H}
    (hs : ((startSys H).restrict fun s e => e.Orderly s).Reachable s) : QueueInv s.kernel.mem := by
  refine hs.invariant (I := fun s => QueueInv s.kernel.mem) ?_ ?_
  · rintro _ rfl
    have hboot : ∀ p, (bootMem.proc p).inQueue = false := by
      intro p
      by_cases hp : p = initproc
      · simp [bootMem, hp, Proc.zero]
      · simp [bootMem, hp, Proc.zero]
    exact QueueInv.initializeQueue hboot
  · rintro s e s' hI ⟨horderly, hstep⟩
    change startStep s e = .ok s' at hstep
    cases e with
    | initQueue h =>
      simp only [startStep] at hstep
      split at hstep
      · cases hstep
      · cases hstep
        exact QueueInv.initializeQueue horderly
    | run e =>
      simp only [startStep] at hstep
      split at hstep
      · obtain ⟨k, hk, hs'⟩ := Outcome.bind_eq_ok hstep
        obtain rfl := Outcome.ok.inj hs'
        exact hI.step horderly hk
      · cases hstep

/-- If `initialize_queue` is called only while nothing is queued, then after every step a process
whose `in_queue` is 1 is stored in its queue, below its size. -/
theorem stored_of_orderly_start {s : Starting H}
    (hs : ((startSys H).restrict fun s e => e.Orderly s).Reachable s) (p : Slot)
    (hp : (s.kernel.mem.proc p).inQueue = true) :
    ∃ i : ℕ, (i : ℤ) < s.kernel.mem.queue.size (s.kernel.mem.proc p).queuePosition ∧
      s.kernel.mem.queue.slot (s.kernel.mem.proc p).queuePosition i = some p :=
  (queueInv_of_orderly hs).stored p hp

instance (m : Mem) : (pc : SchedPc) → Decidable (pc.NoAging m)
  | .loop (.age i) => inferInstanceAs (Decidable (∀ _ : i < NPROC, _))
  | .loop (.rr _) | .loop (.fcfs ..) | .loop (.fcfsTry ..) | .loop (.pbs ..) | .loop (.lbs _)
  | .loop (.fill _) | .loop (.pop _) | .loop (.popCall _) | .loop (.popped _)
  | .swtch _ _ | .ret _ _ => isTrue trivial

instance (s : State H) : (e : Event H) → Decidable (NoAging s e)
  | .sched h _ => inferInstanceAs (Decidable ((s.spc h).NoAging s.mem))
  | .call _ _ | .go _ _ | .intrWakeup _ _ _ | .intrTicks _ | .intrTime _ _ | .setIntr _ _ =>
    isTrue trivial

instance (s : Starting H) : (e : StartEvent H) → Decidable (e.NoAging s)
  | .initQueue _ => isTrue trivial
  | .run e => inferInstanceAs (Decidable (Sched.NoAging s.kernel e))

instance (s : Starting H) : (e : StartEvent H) → Decidable (e.Orderly s)
  | .initQueue _ => inferInstanceAs (Decidable (∀ _, _))
  | .run e => inferInstanceAs (Decidable (Sched.NoAging s.kernel e))

def startRun (C : Starting H → StartEvent H → Prop) [∀ s e, Decidable (C s e)]
    (es : List (StartEvent H)) : Option (Starting H) :=
  TransSys.exec (fun s e => if C s e then (startStep s e).result else none)
    ⟨boot .mlfq H, fun _ => false⟩ es

theorem reachable_of_startRun {C : Starting H → StartEvent H → Prop} [∀ s e, Decidable (C s e)]
    {es : List (StartEvent H)} {s : Starting H} (hs : startRun C es = some s) :
    ((startSys H).restrict C).Reachable s :=
  .of_exec (fun _ _ _ => Outcome.result_eq_some.mp) rfl hs

end

def firstFill : List (StartEvent (Fin 2)) := List.replicate (NPROC + 2) (.run (.sched 0 0))

theorem stored_of_orderly_start_firstFill : ∃ s : Starting (Fin 2),
    ((startSys (Fin 2)).restrict fun s e => e.Orderly s).Reachable s ∧
    (s.kernel.mem.proc initproc).inQueue = true ∧
    ∃ i : ℕ, (i : ℤ) < s.kernel.mem.queue.size (s.kernel.mem.proc initproc).queuePosition ∧
      s.kernel.mem.queue.slot (s.kernel.mem.proc initproc).queuePosition i = some initproc := by
  have hrun : (startRun (fun (s : Starting (Fin 2)) e => e.Orderly s)
      (.initQueue 0 :: .initQueue 1 :: firstFill)).map (fun s =>
        (s.kernel.mem.proc initproc).inQueue) = some true := by decide +kernel
  obtain ⟨s, hs, hin⟩ := Option.map_eq_some_iff.mp hrun
  have hreach := reachable_of_startRun hs
  exact ⟨s, hreach, hin, stored_of_orderly_start hreach initproc hin⟩

/-- Hart 1 calls `initialize_queue` after hart 0 has queued the first process, which is then
`RUNNABLE` and marked as queued, but in no queue. -/
theorem initproc_wiped : ∃ s : Starting (Fin 2),
    ((startSys (Fin 2)).restrict fun s e => e.NoAging s).Reachable s ∧
    (s.kernel.mem.proc initproc).state = .runnable ∧
    (s.kernel.mem.proc initproc).inQueue = true ∧
    ¬ ∃ i : ℕ, (i : ℤ) < s.kernel.mem.queue.size (s.kernel.mem.proc initproc).queuePosition ∧
      s.kernel.mem.queue.slot (s.kernel.mem.proc initproc).queuePosition i = some initproc := by
  have hrun : (startRun (fun (s : Starting (Fin 2)) e => e.NoAging s)
      (.initQueue 0 :: firstFill ++ [.initQueue 1])).map (fun s =>
        ((s.kernel.mem.proc initproc).state, (s.kernel.mem.proc initproc).inQueue,
          s.kernel.mem.queue.size (s.kernel.mem.proc initproc).queuePosition)) =
      some (.runnable, true, 0) := by decide +kernel
  obtain ⟨s, hs, h⟩ := Option.map_eq_some_iff.mp hrun
  simp only [Prod.mk.injEq] at h
  refine ⟨s, reachable_of_startRun hs, h.1, h.2.1, ?_⟩
  rintro ⟨i, hi, -⟩
  rw [h.2.2] at hi
  omega

end Xv6.Sched
