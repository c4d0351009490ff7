import Mathlib.Data.Fintype.Basic
import Xv6.Sched.Exclusive

/-! # MLFQ: two harts can run the same process

The timer path queues a process that is still running, and the scheduler switches to what it pops
without looking at its state. So another hart may pop the process before it has yielded. As long
as every `pop_queue` takes a process that is `RUNNABLE` and that no other hart has popped, the
invariant of the other builds holds for MLFQ as well.
-/

namespace Xv6.Sched
set_option autoImplicit false
open Handover (Act)

section
variable {H : Type} [DecidableEq H] {s s' : State H}

theorem inv_of_fresh_run (hs : ((sys .mlfq H).restrict Fresh).Reachable s) : Inv .mlfq s := by
  refine hs.invariant ?_ ?_
  · rintro _ rfl
    exact boot_inv
  · rintro s e s' hI ⟨hfresh, hstep⟩
    exact (step_ensures hI e hfresh).of_ok hstep

/-! ## Where MLFQ dispatches -/

variable {h : H}

theorem mlfqScan_proc {p : Slot} {l : Loc} {body : Slot → Mem → Outcome Failure Mem}
    (hc : (s.cpu h).At none 0) (hl : s.locks (.proc p) ≠ some h) :
    (mlfqScan body h p l s).Ensures (fun _ => True) fun s' => (s'.cpu h).proc = none := by
  refine Outcome.ensures_bind (acquire_ensures hc hl ?_)
  intro _ c hc'
  refine Outcome.ensures_bind ?_
  cases body p ((s.setCpu h c).setLock (.proc p) (some h)).mem with
  | blocked => trivial
  | fail e => trivial
  | ok m =>
    refine Outcome.ensures_bind (release_ensures (by simpa using hc')
      (by simp) ?_)
    intro c2 hc2
    simpa using hc2.proc

theorem popStep_proc {q : ℕ} (hc : (s.cpu h).proc = none) :
    (popStep h q s).Ensures (fun _ => True) fun s' => (s'.cpu h).proc = none := by
  rw [popStep]
  split
  · split
    · simpa using hc
    · simpa using hc
  · simpa [again] using hc

theorem popCallStep_proc {q : ℕ} (hc : (s.cpu h).proc = none) :
    (popCallStep h q s).Ensures (fun _ => True) fun s' => (s'.cpu h).proc = none := by
  refine Outcome.ensures_bind ?_
  cases popQueue q s.mem with
  | blocked => trivial
  | fail e => trivial
  | ok pm => simpa using hc

theorem locStep_proc (hI : Inv .mlfq s) (hr : s.run h = none) {l : Loc} (hl : s.spc h = .loop l)
    (r : UInt32) : (locStep h r s l).Ensures (fun _ => True) fun s' =>
      ∀ p, (s'.cpu h).proc = some p → l = .popped p := by
  have hb := hI.build_eq hl
  have hc := hI.cpu_loop hr hl
  have hnone : ∀ s' : State H, (s'.cpu h).proc = none →
      ∀ p, (s'.cpu h).proc = some p → l = .popped p := by
    intro s' hn p hp
    exact absurd (hn.symm.trans hp) (by simp)
  have hnot : ∀ q, l.lock = none → s.locks (.proc q) ≠ some h := by
    intro q hno
    refine hI.not_holds ?_
    rw [hI.loop_lock hr hl, hno]
    simp
  cases l with
  | age i =>
    refine Outcome.Ensures.mono ?_ hnone
    rw [locStep, ageStep]
    split
    · exact mlfqScan_proc hc (hnot _ rfl)
    · exact hc.proc
  | fill i =>
    refine Outcome.Ensures.mono ?_ hnone
    rw [locStep, fillStep]
    split
    · exact mlfqScan_proc hc (hnot _ rfl)
    · exact hc.proc
  | pop q => exact (popStep_proc hc.proc).mono hnone
  | popCall q => exact (popCallStep_proc hc.proc).mono hnone
  | popped q =>
    refine Outcome.ensures_bind (acquire_ensures hc (hnot _ rfl) ?_)
    intro _ c _ p hp
    simp only [dispatch, State.goSched_cpu, State.setProc_cpu, Function.update_self,
      Option.some.injEq] at hp
    rw [hp]
  | _ => simp [Loc.build] at hb

theorem popped_of_dispatch (hI : Inv .mlfq s) {r : UInt32} {p : Slot}
    (hstep : step .mlfq s (.sched h r) = .ok s') (hnone : (s.cpu h).proc = none)
    (hsome : (s'.cpu h).proc = some p) : s.spc h = .loop (.popped p) := by
  simp only [step] at hstep
  split at hstep
  · next hr =>
    have hcur : (s.act h).cur = none := (hI.cpu h).proc.symm.trans hnone
    rw [State.act_none hr] at hcur
    cases hl : s.spc h with
    | loop l =>
      have hloc : locStep h r s l = .ok s' := by simpa [schedStep, hl] using hstep
      rw [(locStep_proc hI hr hl r).of_ok hloc p hsome]
    | swtch q l => simp [hl, SchedPc.act, Act.cur] at hcur
    | ret q l => simp [hl, SchedPc.act, Act.cur] at hcur
  · cases hstep

/-! ## The runs that pop only fresh processes -/

/-- In every state that steps meeting `Fresh` lead to: no process is current on two harts, and a
process that a scheduler makes its current one is `RUNNABLE` at that moment. -/
theorem exclusive_of_fresh_run (hs : ((sys .mlfq H).restrict Fresh).Reachable s) :
    (∀ h h' p, (s.cpu h).proc = some p → (s.cpu h').proc = some p → h = h') ∧
    (∀ h r s' p, step .mlfq s (.sched h r) = .ok s' → (s.cpu h).proc = none →
      (s'.cpu h).proc = some p → (s.mem.proc p).state = .runnable) := by
  have hI := inv_of_fresh_run hs
  refine ⟨fun h h' p hp hp' => hI.exclusive hp hp', ?_⟩
  intro h r s' p hstep hnone hsome
  exact hI.sched.picked h p (by rw [popped_of_dispatch hI hstep hnone hsome]; rfl)

instance [Fintype H] (s : State H) (h : H) : Decidable (FreshPop s h) :=
  inferInstanceAs (Decidable (∀ p ∈ popTarget s h, _))

instance [Fintype H] (s : State H) : (e : Event H) → Decidable (Fresh s e)
  | .sched h _ => inferInstanceAs (Decidable (FreshPop s h))
  | .call _ _ | .go _ _ | .intrWakeup _ _ _ | .intrTicks _ | .intrTime _ _ | .setIntr _ _ =>
    isTrue trivial

def freshStep [Fintype H] (s : State H) (e : Event H) : Option (State H) :=
  if Fresh s e then stepOk .mlfq s e else none

theorem freshStep_eq_some [Fintype H] {e : Event H} (h : freshStep s e = some s') :
    ((sys .mlfq H).restrict Fresh).step s e s' := by
  unfold freshStep at h
  split at h
  · next hf => exact ⟨hf, Outcome.result_eq_some.mp h⟩
  · cases h

end

def tour (h : Fin 2) : List (Event (Fin 2)) := List.replicate (2 * (NPROC + 1)) (.sched h 0)

def firstRun : List (Event (Fin 2)) :=
  tour 0 ++ [.sched 0 0, .sched 0 0, .sched 0 0, .sched 0 0, .go 0 true]

theorem exclusive_of_fresh_run_firstRun : ∃ s : State (Fin 2),
    ((sys .mlfq (Fin 2)).restrict Fresh).Reachable s ∧ (s.cpu 0).proc = some initproc ∧
    (∀ h, (s.cpu h).proc = some initproc → h = 0) := by
  have hrun : ((TransSys.exec freshStep (boot .mlfq (Fin 2)) firstRun).map fun s =>
      (s.cpu 0).proc) = some (some initproc) := by decide +kernel
  obtain ⟨s, hs, h0⟩ := Option.map_eq_some_iff.mp hrun
  have hreach : ((sys .mlfq (Fin 2)).restrict Fresh).Reachable s :=
    (TransSys.Reachable.init rfl).run
      (TransSys.Run.of_exec (fun _ _ _ hs => freshStep_eq_some hs) hs)
  exact ⟨s, hreach, h0, fun h hp => (exclusive_of_fresh_run hreach).1 h 0 _ hp h0⟩

/-! ## A run on two harts -/

/-- The first process is in the loop of `allocproc` when the timer interrupts it: `kerneltrap`
queues it at level 1, since it has used up its tick. Before it yields, hart 1 searches the queues
and pops it. -/
def popBeforeYield : List (Event (Fin 2)) :=
  firstRun ++ [.call 0 .fork, .call 0 .tick, .go 0 true, .go 0 true] ++ tour 1 ++
    [.sched 1 0, .sched 1 0, .sched 1 0]

/-- Two harts have the same current process, which was `RUNNING` when the second one took it. -/
theorem two_harts_run_initproc : ∃ s s' : State (Fin 2), (sys .mlfq (Fin 2)).Reachable s ∧
    (s.mem.proc initproc).state = .running ∧ step .mlfq s (.sched 1 0) = .ok s' ∧
    (s'.cpu 0).proc = some initproc ∧ (s.cpu 1).proc = none ∧
    (s'.cpu 1).proc = some initproc := by
  have hrun : ((TransSys.exec (stepOk .mlfq) (boot .mlfq (Fin 2)) popBeforeYield).bind
      fun s => (stepOk .mlfq s (.sched 1 0)).map fun s' =>
        ((s.mem.proc initproc).state, (s'.cpu 0).proc, (s.cpu 1).proc, (s'.cpu 1).proc)) =
      some (.running, some initproc, none, some initproc) := by decide +kernel
  obtain ⟨s, hs, h⟩ := Option.bind_eq_some_iff.mp hrun
  obtain ⟨s', hs', h⟩ := Option.map_eq_some_iff.mp h
  simp only [Prod.mk.injEq] at h
  exact ⟨s, s', reachable_of_exec hs, h.1, Outcome.result_eq_some.mp hs', h.2⟩

end Xv6.Sched
