import Xv6.Sched.ThreadInv

/-! # No process runs on two harts

Under RR, FCFS, PBS and LBS every reachable state satisfies the invariant, hence a process is
current on at most one hart and every `swtch` happens with the lock of that process alone. Under
MLFQ this needs `pop_queue` to find only processes that are `RUNNABLE` and not already taken.
-/

namespace Xv6.Sched
set_option autoImplicit false
open Handover (Act)

section
variable {H : Type} {b : Build} {s : State H}

theorem boot_act (h : H) : (boot b H).act h = .idle none := by
  cases b <;> rfl

theorem boot_state (p : Slot) : ((boot b H).mem.proc p).state =
    if p = initproc then .runnable else .unused := by
  by_cases hp : p = initproc
  · simp [boot, bootMem, hp]
  · simp [boot, bootMem, hp, Proc.zero]

theorem boot_thread (p : Slot) : (boot b H).thread p =
    if p = initproc then .resume .forkret else .absent := by
  simp [boot, Function.update_apply]

theorem boot_inv : Inv b (boot b H) where
  hand := by
    refine ⟨?_, ?_, ?_, ?_⟩
    · intro l h
      rw [boot_act]
      simp [Act.lock, boot]
    · intro h h' p hp
      simp [boot_act, Act.cur] at hp
    · intro h p hp
      simp [boot_act, Act.live] at hp
    · intro p hp
      rw [boot_state] at hp
      split at hp <;> cases hp
  cpu := by
    intro h
    rw [boot_act]
    exact ⟨rfl, rfl, by simp [Act.lock]⟩
  home := by
    intro h p hp
    simp [boot] at hp
  parked := by
    intro p _ hu _
    rw [boot_state] at hu
    rw [boot_thread]
    split at hu
    · next hp => exact ⟨.forkret, by simp [hp]⟩
    · exact absurd rfl hu
  exited := by
    intro p hp
    rw [boot_thread] at hp
    split at hp <;> simp [Thread.exited] at hp
  child := by
    intro a c hc
    rw [boot_thread] at hc
    split at hc <;> simp [Thread.child, Ret.child] at hc
  threadWf := by
    intro p
    rw [boot_thread]
    split <;> trivial
  sched := by
    refine ⟨?_, ?_, ?_, ?_⟩
    · intro h p hp
      cases b <;> simp [boot, Build.start, SchedPc.picked, Loc.picked] at hp
    · intro h h' p hp
      cases b <;> simp [boot, Build.start] at hp
    · intro h
      cases b <;> rfl
    · intro h
      cases b <;> trivial

/-- A step under MLFQ takes only a process that is `RUNNABLE` and that no hart has popped and not
locked yet; every step that is not a `pop_queue` meets the condition. -/
def Fresh (s : State H) : Event H → Prop
  | .sched h _ => FreshPop s h
  | _ => True

variable [DecidableEq H] {p : Slot}

theorem interrupt_ensures (hI : Inv b s) {h : H} {q : Slot} {f : Mem → Mem}
    (hi : (s.cpu h).intr = true) (hf : Quiet s (f s.mem)) :
    (critical h (.proc q) f s).Ensures (Allowed b) (Inv b) := by
  have hc := hI.cpu h
  have hnone : (s.act h).lock LockId.proc = none := by
    cases hl : (s.act h).lock LockId.proc with
    | none => rfl
    | some l =>
      have := hc.intr (by simp [hl])
      simp [hi] at this
  refine critical_ensures hc (hI.not_holds (by simp [hnone])) ?_
  intro _ c hc'
  have hself : (Function.update s.cpu h c h).At (s.act h).cur
      (lockCount ((s.act h).lock LockId.proc)) := by
    simpa using hc'
  exact (hI.setMem hf).setCpu (fun g hg => by simp [hg]) hself

theorem step_ensures (hI : Inv b s) (e : Event H) (hfresh : Fresh s e) :
    (step b s e).Ensures (Allowed b) (Inv b) := by
  cases e with
  | sched h r =>
    exact Outcome.ensures_guard fun hr => schedStep_ensures hI hr r hfresh
  | call h c =>
    simp only [step]
    split
    · trivial
    · next p hr =>
      split
      · next pc ht => exact callStep_ensures hI hr ht c
      · trivial
  | go h ok =>
    simp only [step]
    split
    · trivial
    · next p hr =>
      split
      · next pc ht => exact pcStep_ensures hI hr ht
      · next ret ht => exact schedCall_ensures hI hr ht
      · next ret ht => exact resumeStep_ensures hI hr ht
      · trivial
  | intrWakeup h chan q =>
    exact Outcome.ensures_guard fun hi => interrupt_ensures hI hi.1 (wakeOne_quiet chan q)
  | intrTicks h => exact Outcome.ensures_guard fun _ => hI.setMem (.of_state_eq fun _ => rfl)
  | intrTime h q =>
    exact Outcome.ensures_guard fun hi => interrupt_ensures hI hi (set_quiet rfl)
  | setIntr h on =>
    simp only [step]
    split
    · next hn =>
      have hc := hI.cpu h
      refine hI.setCpu (h := h) (fun g hg => by simp [hg]) ⟨?_, ?_, ?_⟩
      · simpa using hc.proc
      · simpa using hc.noff
      · intro hpos
        rw [← hc.noff, hn] at hpos
        exact absurd hpos (by simp)
    · trivial

/-! ## RR, FCFS, PBS and LBS -/

/-- Hart `h` is right before or right after a `swtch` into or out of `p`. -/
inductive AtSwtch (s : State H) (h : H) (p : Slot) : Prop
  | beforeIn (l : Loc) (hr : s.run h = none) (hl : s.spc h = .swtch p l)
  | afterIn (ret : Ret) (hr : s.run h = some p) (ht : s.thread p = .resume ret)
  | beforeOut (ret : Ret) (hr : s.run h = some p) (ht : s.thread p = .sched ret)
  | afterOut (l : Loc) (hr : s.run h = none) (hl : s.spc h = .ret p l)

omit [DecidableEq H] in
theorem Inv.lock_at_swtch (hI : Inv b s) {h : H} (hs : AtSwtch s h p) (l : LockId) :
    s.locks l = some h ↔ l = .proc p := by
  have hlock : (s.act h).lock LockId.proc = some (.proc p) := by
    cases hs with
    | beforeIn l hr hl | afterOut l hr hl => rw [State.act_none hr, hl]; rfl
    | afterIn ret hr ht | beforeOut ret hr ht => rw [State.act_some hr, ht]; rfl
  rw [hI.hand.lock, hlock]
  constructor
  · intro h
    exact (Option.some.inj h).symm
  · intro h
    rw [h]

omit [DecidableEq H] in
theorem Inv.exclusive (hI : Inv b s) {h h' : H} (hp : (s.cpu h).proc = some p)
    (hp' : (s.cpu h').proc = some p) : h = h' :=
  hI.hand.uniq h h' p ((hI.cpu h).proc.symm.trans hp) ((hI.cpu h').proc.symm.trans hp')

omit [DecidableEq H] in
theorem Inv.running_current (hI : Inv b s) (hp : (s.mem.proc p).state = .running) :
    ∃ h, (s.cpu h).proc = some p := by
  obtain ⟨h, hl⟩ := hI.hand.live_of_running p hp
  exact ⟨h, (hI.cpu h).proc.trans (Handover.Act.cur_of_live hl)⟩

omit [DecidableEq H] in
theorem Inv.fresh (hI : Inv b s) (hb : b ≠ .mlfq) (e : Event H) : Fresh s e := by
  cases e with
  | sched h r =>
    intro p hp
    unfold popTarget at hp
    split at hp
    · next q hl => exact absurd (hI.build_eq hl).symm hb
    · simp at hp
  | _ => trivial

theorem inv_of_reachable (hb : b ≠ .mlfq) (hs : (sys b H).Reachable s) : Inv b s := by
  refine hs.invariant ?_ ?_
  · rintro _ rfl
    exact boot_inv
  · intro s e s' hI hstep
    exact (step_ensures hI e (hI.fresh hb e)).of_ok hstep

/-- Under RR, FCFS, PBS and LBS, in every reachable state: a process is current on at most one
hart; a `RUNNING` process is current on exactly one; at every `swtch` the hart holds the lock of
that process and no other process lock; and no step fails, unless `init` exits. -/
theorem exclusive_of_reachable (hb : b ≠ .mlfq) (hs : (sys b H).Reachable s) :
    (∀ h h' p, (s.cpu h).proc = some p → (s.cpu h').proc = some p → h = h') ∧
    (∀ p, (s.mem.proc p).state = .running → ∃! h, (s.cpu h).proc = some p) ∧
    (∀ h p, AtSwtch s h p → ∀ q, s.locks (.proc q) = some h ↔ q = p) ∧
    (∀ e f, step b s e = .fail f → f = .panic "init exiting") := by
  have hI := inv_of_reachable hb hs
  refine ⟨fun h h' p hp hp' => hI.exclusive hp hp', ?_, ?_, ?_⟩
  · intro p hp
    obtain ⟨h, hh⟩ := hI.running_current hp
    exact ⟨h, hh, fun h' hh' => hI.exclusive hh' hh⟩
  · intro h p hsw q
    rw [hI.lock_at_swtch hsw]
    simp
  · intro e f hf
    exact ((step_ensures hI e (hI.fresh hb e)).of_fail hf).resolve_left hb

def stepOk (b : Build) (s : State H) (e : Event H) : Option (State H) := (step b s e).result

theorem reachable_of_exec {es : List (Event H)} {t : State H}
    (h : TransSys.exec (stepOk b) (boot b H) es = some t) : (sys b H).Reachable t :=
  (TransSys.Reachable.init rfl).run
    (TransSys.Run.of_exec (fun _ _ _ hs => Outcome.result_eq_some.mp hs) h)

end

/-- Under PBS: the first process, on hart 0, forks two children at ticks 1 and 2; hart 1 runs the
first one, which exits and is waited for; a third child is forked at tick 3 into its slot, and
hart 1 goes over the table again. The two children left tie in priority and in times scheduled. -/
def pbsReused : List (Event (Fin 2)) :=
  List.replicate (NPROC + 2) (Event.sched 0 0) ++
    [Event.go 0 true, .intrTicks 1, .call 0 .fork] ++ List.replicate 4 (Event.go 0 true) ++
    [Event.intrTicks 1, .call 0 .fork] ++ List.replicate 5 (Event.go 0 true) ++
    List.replicate (NPROC + 2) (Event.sched 1 0) ++ [Event.go 1 true, .call 1 (.exit 0)] ++
    List.replicate (2 * (NPROC + 1) + 2) (Event.go 1 true) ++
    [Event.sched 1 0, .call 0 .wait, .go 0 true, .go 0 true, .intrTicks 1, .call 0 .fork] ++
    List.replicate 4 (Event.go 0 true) ++ List.replicate (NPROC + 1) (Event.sched 1 0)

/-- The scan stopped at slot 1 first, and the older child in slot 2 has taken its place. -/
theorem exclusive_of_reachable_pbsReused : ∃ s : State (Fin 2), ∃ young old : Slot,
    (sys .pbs (Fin 2)).Reachable s ∧ young < old ∧
    (s.mem.proc young).state = .runnable ∧ (s.mem.proc old).ctime < (s.mem.proc young).ctime ∧
    (s.mem.proc initproc).state = .running ∧ (∃! h, (s.cpu h).proc = some initproc) ∧
    (s.mem.proc old).state = .running ∧ (∃! h, (s.cpu h).proc = some old) ∧
    AtSwtch s 1 old ∧ (∀ q, s.locks (.proc q) = some 1 ↔ q = old) ∧
    ∀ e f, step .pbs s e = .fail f → f = .panic "init exiting" := by
  have hrun : ((TransSys.exec (stepOk .pbs) (boot .pbs (Fin 2)) pbsReused).map fun s =>
      decide ((s.mem.proc ⟨1, by decide⟩).state = .runnable ∧
        (s.mem.proc ⟨2, by decide⟩).ctime < (s.mem.proc ⟨1, by decide⟩).ctime ∧
        (s.mem.proc initproc).state = .running ∧ (s.mem.proc ⟨2, by decide⟩).state = .running ∧
        s.run 1 = none ∧ s.spc 1 = .swtch ⟨2, by decide⟩ (.pbs 0 none 0))) = some true := by
    decide +kernel
  obtain ⟨s, hs, hst⟩ := Option.map_eq_some_iff.mp hrun
  obtain ⟨hyoung, hctime, hinit, hold, hnone, hspc⟩ := of_decide_eq_true hst
  have hreach := reachable_of_exec hs
  obtain ⟨-, hunique, hlocks, hfail⟩ := exclusive_of_reachable (by decide) hreach
  have hswtch : AtSwtch s 1 ⟨2, by decide⟩ := .beforeIn _ hnone hspc
  exact ⟨s, ⟨1, by decide⟩, ⟨2, by decide⟩, hreach, by decide, hyoung, hctime, hinit,
    hunique _ hinit, hold, hunique _ hold, hswtch, hlocks _ _ hswtch, hfail⟩

end Xv6.Sched
