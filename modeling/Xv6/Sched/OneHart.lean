import Xv6.Sched.QueueMove

/-! # The MLFQ kernel on one hart

With one hart a round of `scheduler()` is not interleaved with another one: a process that is popped
is not queued again before it runs, and one that yields is queued before it is popped. What a
process is going to do in the timer path is known from its thread alone.
-/

namespace Xv6.Sched
set_option autoImplicit false
open Function (update update_self update_of_ne)

/-! ## A step of the MLFQ scheduler -/

section
variable {H : Type} [DecidableEq H] {s s' : State H} {h : H}

inductive MlfqMove (h : H) (s s' : State H) : Prop
  | age (i : ℕ) (hl : s.spc h = .loop (.age i))
      (hl' : s'.spc h = .loop (.age (i + 1)) ∨ s'.spc h = .loop (.fill 0))
      (hst : ∀ p, (s'.mem.proc p).state = (s.mem.proc p).state)
  | fill (p : Slot) (hl : s.spc h = .loop (.fill p.val))
    (hl' : s'.spc h = .loop (.fill (p.val + 1)))
      (hm : fillOne p s.mem = .ok s'.mem)
  | filled (i : ℕ) (hi : NPROC ≤ i) (hl : s.spc h = .loop (.fill i))
    (hl' : s'.spc h = .loop (.pop 0))
  | pop (q : ℕ) (hl : s.spc h = .loop (.pop q))
      (hl' : s'.spc h = .loop (.age 0) ∨ s'.spc h = .loop (.pop (q + 1)) ∨
        s'.spc h = .loop (.popCall q))
  | popCall (q : ℕ) (p : Slot) (hl : s.spc h = .loop (.popCall q))
      (hl' : s'.spc h = .loop (.popped p)) (hm : popQueue q s.mem = .ok (p, s'.mem))
  | popped (p : Slot) (hl : s.spc h = .loop (.popped p)) (hl' : s'.spc h = .swtch p (.age 0))
      (hm : SameQueues s.mem s'.mem)
  | enter (p : Slot) (l : Loc) (hl : s.spc h = .swtch p l) (hl' : s'.spc h = .ret p l)
  | back (p : Slot) (l : Loc) (hl : s.spc h = .ret p l) (hl' : s'.spc h = .loop l)
      (hm : s'.mem = s.mem)

theorem mlfqScan_ok {body : Slot → Mem → Outcome Failure Mem} {p : Slot} {l : Loc} :
    (mlfqScan body h p l s).Ensures (fun _ => True) fun s' =>
      s'.spc h = .loop l ∧ body p s.mem = .ok s'.mem := by
  refine Outcome.ensures_bind (acquire_frame ?_)
  intro L C
  refine Outcome.ensures_bind ?_
  generalize hm : body p s.mem = r
  cases r with
  | blocked => trivial
  | fail e => trivial
  | ok m =>
    refine Outcome.ensures_bind (release_frame ?_)
    intro L C
    exact ⟨by simp, rfl⟩

theorem locStep_mlfq (r : UInt32) {l : Loc} (hl : s.spc h = .loop l) (hb : l.build = .mlfq) :
    (locStep h r s l).Ensures (fun _ => True) (MlfqMove h s) := by
  cases l with
  | rr i | fcfs i p flag t | fcfsTry i p flag t | pbs i m prio | lbs i => cases hb
  | age i =>
    simp only [locStep, ageStep]
    split
    · refine mlfqScan_ok.mono ?_
      rintro s' ⟨hl', hm⟩
      exact .age i hl (.inl hl') (ageOne_state hm)
    · exact .age i hl (.inr (by simp)) fun _ => rfl
  | fill i =>
    simp only [locStep, fillStep]
    split
    · next hi =>
      refine mlfqScan_ok.mono ?_
      rintro s' ⟨hl', hm⟩
      exact .fill ⟨i, hi⟩ hl hl' hm
    · next hi => exact .filled i (Nat.le_of_not_lt hi) hl (by simp)
  | pop q =>
    simp only [locStep, popStep]
    split
    · split
      · exact .pop q hl (.inr (.inr (by simp)))
      · exact .pop q hl (.inr (.inl (by simp)))
    · exact .pop q hl (.inl (by simp [again]))
  | popCall q =>
    refine Outcome.ensures_bind ?_
    cases hpop : popQueue q s.mem with
    | blocked => trivial
    | fail e => trivial
    | ok pm => exact .popCall q pm.1 hl (by simp) hpop
  | popped p =>
    refine Outcome.ensures_bind (acquire_frame ?_)
    intro L C
    have hct : SameQueues s.mem (s.mem.set p fun x =>
        { x with schedCt := x.schedCt + 1, currWaitTime := 0 }) :=
      .set _ _ fun _ => ⟨rfl, rfl, rfl⟩
    exact .popped p hl (by simp [dispatch]) (hct.trans (.setState _ p .running))

theorem sched_mlfq {r : UInt32} (hb : (s.spc h).loc.build = .mlfq)
    (hs : step .mlfq s (.sched h r) = .ok s') : MlfqMove h s s' := by
  simp only [step] at hs
  split at hs
  · unfold schedStep at hs
    cases hpc : s.spc h with
    | loop l =>
      rw [hpc] at hs hb
      exact (locStep_mlfq r hpc hb).of_ok hs
    | swtch p l =>
      rw [hpc] at hs
      cases hs
      exact .enter p l hpc (by simp)
    | ret p l =>
      rw [hpc] at hs
      have hret : (release h (.proc p) (s.setProc h none) >>= fun t =>
          pure (t.goSched h (.loop l))).Ensures (fun _ => True) (MlfqMove h s) := by
        refine Outcome.ensures_bind (release_frame ?_)
        intro L C
        exact .back p l hpc (by simp) rfl
      exact hret.of_ok hs
  · cases hs

end

/-! ## What the queue calls do to one process -/

theorem pushQueue_self {p : Slot} {q : ℕ} {m m' : Mem} (hm : pushQueue p q m = .ok m') :
    (m'.proc p).queuePosition = q ∧ (m'.proc p).ticksUsed = 0 := by
  simp only [pushQueue] at hm
  split at hm
  · cases hm
    simp [Mem.set]
  · cases hm

variable {p : Slot} {q : ℕ}

theorem pushQueue_other {r : Slot} {m m' : Mem} (hm : pushQueue p q m = .ok m') (hr : r ≠ p) :
    m'.proc r = m.proc r := by
  simp only [pushQueue] at hm
  split at hm
  · cases hm
    simp [Mem.set, hr]
  · cases hm

theorem popQueue_self {m m' : Mem} (hm : popQueue q m = .ok (p, m')) :
    (m'.proc p).inQueue = false := by
  simp only [popQueue] at hm
  split at hm
  · cases hm
  · cases hm
    simp [Mem.set]

theorem popQueue_other {r : Slot} {m m' : Mem} (hm : popQueue q m = .ok (p, m')) (hr : r ≠ p) :
    m'.proc r = m.proc r := by
  simp only [popQueue] at hm
  split at hm
  · cases hm
  · cases hm
    simp [Mem.set, hr]

theorem popQueue_level {m m' : Mem} (hm : popQueue q m = .ok (p, m')) (r : Slot) :
    (m'.proc r).queuePosition = (m.proc r).queuePosition ∧
      (m'.proc r).ticksUsed = (m.proc r).ticksUsed := by
  simp only [popQueue] at hm
  split at hm
  · cases hm
  · next p' _ =>
    obtain ⟨rfl, rfl⟩ := Prod.mk.inj (Outcome.ok.inj hm)
    by_cases hr : r = p'
    · subst hr
      simp [Mem.set]
    · simp [Mem.set, hr]

/-! ## The invariant -/

/-- The locals of `scheduler()` fit the MLFQ build, which starts a new round after each switch. -/
def SchedPc.Cycle : SchedPc → Prop
  | loop l => l.build = .mlfq
  | swtch _ l | ret _ l => l = .age 0

theorem SchedPc.Cycle.build {pc : SchedPc} (h : pc.Cycle) : pc.loc.build = .mlfq := by
  cases pc with
  | loop l => exact h
  | swtch p l | ret p l =>
    obtain rfl : l = .age 0 := h
    rfl

theorem MlfqMove.cycle {H : Type} {h : H} {s s' : State H} (hm : MlfqMove h s s')
    (hc : (s.spc h).Cycle) : (s'.spc h).Cycle := by
  cases hm with
  | age i hl hl' hst => rcases hl' with hl' | hl' <;> rw [hl'] <;> rfl
  | fill p hl hl' hm | filled i hi hl hl' | popCall q p hl hl' hm | popped p hl hl' hm =>
    rw [hl']; rfl
  | pop q hl hl' => rcases hl' with hl' | hl' | hl' <;> rw [hl'] <;> rfl
  | enter p l hl hl' =>
    rw [hl] at hc
    rw [hl']
    exact hc
  | back p l hl hl' hm =>
    rw [hl] at hc
    obtain rfl : l = .age 0 := hc
    rw [hl']
    rfl

/-- The scheduler has taken `p` from its queue and is about to run it. -/
def SchedPc.Picks (p : Slot) : SchedPc → Prop
  | loop (.popped r) | swtch r _ => r = p
  | _ => False

structure OneHart (s : State Unit) : Prop where
  later : ∀ p, (s.thread p).pushesLater = false
  pushes : ∀ p, (s.thread p).pushes = true → s.run () = some p
  cycle : (s.spc ()).Cycle
  home : ∀ p, s.run () = some p → s.spc () = .ret p (.age 0)
  picked : ∀ p, (s.spc ()).Picks p → (s.mem.proc p).inQueue = false
  running : ∀ p, s.run () = some p → (s.mem.proc p).inQueue = true → (s.thread p).waits = true

namespace OneHart
variable {s s' : State Unit} {e : Event Unit} {p : Slot}

theorem boot : OneHart (boot .mlfq Unit) := by
  have hthread : ∀ p, (Sched.boot .mlfq Unit).thread p = .resume .forkret ∨
      (Sched.boot .mlfq Unit).thread p = .absent := by
    intro p
    by_cases hp : p = initproc
    · exact .inl (by simp [Sched.boot, hp])
    · exact .inr (by simp [Sched.boot, hp])
  refine ⟨?_, ?_, rfl, ?_, ?_, ?_⟩
  · intro p
    rcases hthread p with hp | hp <;> rw [hp] <;> rfl
  · intro p hpush
    rcases hthread p with hp | hp <;> rw [hp] at hpush <;> cases hpush
  · intro p hr
    cases hr
  · intro p hp
    exact hp.elim
  · intro p hr
    cases hr

theorem not_queued (hI : OneHart s) (hr : s.run () = some p) (hw : (s.thread p).waits = false) :
    (s.mem.proc p).inQueue = false := by
  by_contra hin
  rw [Bool.not_eq_false] at hin
  rw [hI.running p hr hin] at hw
  cases hw

theorem picked_step (hI : OneHart s) (hm : MlfqMove () s s') (p : Slot)
    (hp : (s'.spc ()).Picks p) : (s'.mem.proc p).inQueue = false := by
  cases hm with
  | age i hl hl' hst => rcases hl' with hl' | hl' <;> rw [hl'] at hp <;> exact hp.elim
  | fill q hl hl' hm | filled i hi hl hl' | enter r l hl hl' =>
    rw [hl'] at hp
    exact hp.elim
  | pop q hl hl' => rcases hl' with hl' | hl' | hl' <;> rw [hl'] at hp <;> exact hp.elim
  | popCall q r hl hl' hm =>
    rw [hl'] at hp
    obtain rfl : r = p := hp
    exact popQueue_self hm
  | popped r hl hl' hm =>
    rw [hl'] at hp
    obtain rfl : r = p := hp
    rw [hm.inQueue]
    exact hI.picked r (by rw [hl]; rfl)
  | back r l hl hl' hm =>
    have hc := hI.cycle
    rw [hl] at hc
    obtain rfl : l = .age 0 := hc
    rw [hl'] at hp
    exact hp.elim

theorem thread_step (hI : OneHart s) (hr : s.run () = some p)
    (hother : ∀ q, q ≠ p → s'.thread q = s.thread q ∨ s'.thread q = .resume .forkret)
    (hf : ThreadFrame s s') (hlater : (s'.thread p).pushesLater = false)
    (hin : (s'.mem.proc p).inQueue = true → (s'.thread p).waits = true) : OneHart s' := by
  have hhome := hI.home p hr
  refine ⟨?_, ?_, ?_, ?_, ?_, ?_⟩
  · intro q
    by_cases hq : q = p
    · rw [hq, hlater]
    · rcases hother q hq with ht | ht
      · rw [ht, hI.later q]
      · rw [ht]
        rfl
  · intro q hpush
    rw [hf.run]
    by_cases hq : q = p
    · rw [hq, hr]
    · rcases hother q hq with ht | ht
      · rw [ht] at hpush
        exact hI.pushes q hpush
      · rw [ht] at hpush
        cases hpush
  · rw [hf.spc]
    exact hI.cycle
  · rw [hf.run, hf.spc]
    exact hI.home
  · intro q hq
    rw [hf.spc, hhome] at hq
    exact hq.elim
  · intro q hq hinq
    rw [hf.run, hr] at hq
    cases hq
    exact hin hinq

theorem own_step (hI : OneHart s) (hr : s.run () = some p) {t : Thread}
    (ht : s'.thread = update s.thread p t) (hf : ThreadFrame s s') (hlater : t.pushesLater = false)
    (hin : (s'.mem.proc p).inQueue = true → t.waits = true) : OneHart s' := by
  have hself : s'.thread p = t := by rw [ht, update_self]
  refine hI.thread_step hr ?_ hf (by rw [hself, hlater]) (by rwa [hself])
  intro q hq
  rw [ht, update_of_ne hq]
  exact .inl rfl

theorem step (hI : OneHart s) (hs : step .mlfq s e = .ok s') : OneHart s' := by
  cases (step_move e).of_ok hs with
  | still hm ht hf hst =>
    refine ⟨?_, ?_, ?_, ?_, ?_, ?_⟩
    · rw [ht]; exact hI.later
    · rw [ht, hf.run]; exact hI.pushes
    · rw [hf.spc]; exact hI.cycle
    · rw [hf.run, hf.spc]; exact hI.home
    · intro p hp
      rw [hf.spc] at hp
      rw [hm.inQueue, hI.picked p hp]
    · intro p hr hin
      rw [hf.run] at hr
      rw [hm.inQueue] at hin
      rw [ht]
      exact hI.running p hr hin
  | sched h r heq hr hf =>
    subst heq
    have hmove := sched_mlfq hI.cycle.build hs
    have hnone : s'.run () = none := (congrFun hf.run ()).trans hr
    refine ⟨?_, ?_, hmove.cycle hI.cycle, ?_, hI.picked_step hmove, ?_⟩
    · rw [hf.thread]; exact hI.later
    · rw [hf.thread, hf.run]; exact hI.pushes
    · intro p hp
      rw [hnone] at hp
      cases hp
    · intro p hp
      rw [hnone] at hp
      cases hp
  | enter h r p l heq hr hl hm ht hrun hspc =>
    subst heq
    have hmove := sched_mlfq hI.cycle.build hs
    have hcycle := hmove.cycle hI.cycle
    have hpc : s'.spc () = .ret p l := by rw [hspc, update_self]
    have hself : s'.run () = some p := by rw [hrun, update_self]
    refine ⟨?_, ?_, hcycle, ?_, hI.picked_step hmove, ?_⟩
    · rw [ht]; exact hI.later
    · intro q hpush
      rw [ht] at hpush
      exact absurd (hr.symm.trans (hI.pushes q hpush)) (by simp)
    · intro q hq
      rw [hpc] at hcycle
      obtain rfl : l = .age 0 := hcycle
      rw [hself] at hq
      rw [hpc, Option.some.inj hq]
    · intro q hq hin
      rw [hself] at hq
      cases hq
      rw [hm, hI.picked p (by rw [hl]; rfl)] at hin
      cases hin
  | leave h p ret hr hp hm ht hrun hspc =>
    have hnone : s'.run () = none := by rw [hrun, update_self]
    have hret : ret.pushes = false := by
      have hlater := hI.later p
      rwa [hp] at hlater
    have hhome := hI.home p hr
    refine ⟨?_, ?_, ?_, ?_, ?_, ?_⟩
    · intro q
      by_cases hq : q = p
      · rw [ht, hq, update_self]
        exact hret
      · rw [ht, update_of_ne hq, hI.later q]
    · intro q hpush
      by_cases hq : q = p
      · rw [ht, hq, update_self] at hpush
        exact absurd hpush (by simp [Thread.pushes, hret])
      · rw [ht, update_of_ne hq] at hpush
        exact absurd (hr.symm.trans (hI.pushes q hpush)) fun h => hq (Option.some.inj h).symm
    · rw [hspc]; exact hI.cycle
    · intro q hq
      rw [hnone] at hq
      cases hq
    · intro q hq
      rw [hspc, hhome] at hq
      exact hq.elim
    · intro q hq
      rw [hnone] at hq
      cases hq
  | own h p t hr hp hm ht hf hpush hwait =>
    refine hI.own_step hr ht hf ?_ ?_
    · by_contra hlater
      rw [Bool.not_eq_false] at hlater
      rcases hpush (Thread.pushes_of_later hlater) with hold | ⟨i, ret, htick, rfl, -, -⟩
      · rw [hI.later p] at hold
        cases hold
      · have hold := hI.later p
        rw [htick] at hold
        exact absurd (hold.symm.trans hlater) (by simp)
    · intro hin
      rw [hm.inQueue] at hin
      exact hwait (hI.running p hr hin)
  | fork h ok p q heq hr hp hq hm ht hf =>
    have hself : s'.thread p = .at (.forkParent q) := by rw [ht, update_self]
    have hacts : (s.thread p).waits = false := by rw [hp]; rfl
    refine hI.thread_step hr ?_ hf (by rw [hself]; rfl) ?_
    · intro r hr
      rw [ht, update_of_ne hr]
      by_cases hrq : r = q
      · rw [hrq, update_self]
        exact .inr rfl
      · rw [update_of_ne hrq]
        exact .inl rfl
    · intro hin
      rw [hm] at hin
      exact absurd ((allocOne_keep _ _).proc p hin).1 (by simp [hI.not_queued hr hacts])
  | forkFail h ok p q heq hr hp hq hm ht hf =>
    have hacts : (s.thread p).waits = false := by rw [hp]; rfl
    refine hI.own_step hr ht hf rfl ?_
    intro hin
    rw [hm, allocFail, (freeproc_sameQueues _ _).inQueue] at hin
    exact absurd ((allocOne_keep _ _).proc p hin).1 (by simp [hI.not_queued hr hacts])
  | tick h p pc heq hr hp hpc hm ht hf =>
    refine hI.own_step hr ht hf (show pc.pushes = false from Pc.pushes_of_interruptible hpc) ?_
    intro hin
    have hacts : (s.thread p).waits = false := by
      rw [hp]
      cases pc <;> first | rfl | cases hpc
    rw [hm, Mem.set_proc_self] at hin
    rw [hI.not_queued hr hacts] at hin
    cases hin
  | push h p demote ret hr hp hm ht hf =>
    have hlater := hI.later p
    rw [hp] at hlater
    exact hI.own_step hr ht hf hlater fun _ => rfl

end OneHart

theorem oneHart_of_reachable {s : State Unit} (hs : (sys .mlfq Unit).Reachable s) : OneHart s := by
  refine hs.invariant ?_ ?_
  · rintro _ rfl
    exact OneHart.boot
  · intro s e s' hI hstep
    exact hI.step hstep

end Xv6.Sched
