import Xv6.Sched.Exclusive
import Xv6.Sched.Moves

/-! # What a step does to the process tree

`Effect` lists what a step may do to the process table and to the threads, as far as `fork`,
`exit`, `wait` and `waitx` depend on it. Everything else a step does is `Calm`: it keeps the pids,
the parents and the stage of life of every process, and puts nobody to sleep on a process. The
invariants on the process tree are derived from this list.
-/

namespace Xv6.Sched
set_option autoImplicit false
open Function (update)
open Handover (Act)

/-- The stage of a process: the states between creation and exit count as one. -/
def ProcState.stage : ProcState → ProcState
  | sleeping | runnable | running => running
  | unused => unused
  | used => used
  | zombie => zombie

def Mem.SleepsOn (m : Mem) (q r : Slot) : Prop :=
  (m.proc q).state = .sleeping ∧ (m.proc q).chan = .proc r

instance (m : Mem) (q r : Slot) : Decidable (m.SleepsOn q r) :=
  inferInstanceAs (Decidable (_ ∧ _))

/-- The change of one process that the process tree does not notice. -/
structure ProcCalm (x y : Proc) : Prop where
  pid : y.pid = x.pid
  parent : y.parent = x.parent
  trapframe : y.trapframe = x.trapframe
  pagetable : y.pagetable = x.pagetable
  stage : y.state.stage = x.state.stage
  sleeps : ∀ r, y.state = .sleeping → y.chan = .proc r → x.state = .sleeping ∧ x.chan = .proc r

structure Calm (m m' : Mem) : Prop where
  nextpid : m'.nextpid = m.nextpid
  proc : ∀ q, ProcCalm (m.proc q) (m'.proc q)

theorem ProcCalm.refl (x : Proc) : ProcCalm x x :=
  ⟨rfl, rfl, rfl, rfl, rfl, fun _ h h' => ⟨h, h'⟩⟩

theorem Calm.refl (m : Mem) : Calm m m := ⟨rfl, fun _ => .refl _⟩

variable {q : Slot}

theorem Calm.set {m : Mem} {f : Proc → Proc} (hf : ProcCalm (m.proc q) (f (m.proc q))) :
    Calm m (m.set q f) := by
  refine ⟨rfl, ?_⟩
  intro r
  by_cases hr : r = q
  · subst hr
    rw [Mem.set_proc_self]
    exact hf
  · rw [Mem.set_proc_of_ne _ _ hr]
    exact .refl _

theorem Calm.trans {m1 m2 m3 : Mem} (h : Calm m1 m2) (h' : Calm m2 m3) : Calm m1 m3 := by
  refine ⟨h'.nextpid.trans h.nextpid, ?_⟩
  intro q
  have hx := h.proc q
  have hy := h'.proc q
  refine ⟨hy.pid.trans hx.pid, hy.parent.trans hx.parent, hy.trapframe.trans hx.trapframe,
    hy.pagetable.trans hx.pagetable, hy.stage.trans hx.stage, ?_⟩
  intro r hs hc
  obtain ⟨hs, hc⟩ := hy.sleeps r hs hc
  exact hx.sleeps r hs hc

theorem Calm.setState {m : Mem} {st : ProcState} (hst : st.stage = .running)
    (hq : (m.proc q).state.stage = .running) (hne : st ≠ .sleeping) : Calm m (m.setState q st) := by
  refine .set ⟨rfl, rfl, rfl, rfl, hst.trans hq.symm, ?_⟩
  intro r hs
  exact absurd hs hne

theorem Calm.sleepsOn {m m' : Mem} (h : Calm m m') {r : Slot} (hs : m'.SleepsOn q r) :
    m.SleepsOn q r :=
  (h.proc q).sleeps r hs.1 hs.2

/-! ## The places that matter -/

/-- The place of a thread in `fork`, `exit`, `wait` or `waitx`, once it has done something there
that others depend on. A timer interrupt does not change it. -/
def Pc.core : Pc → Option Pc
  | wakeup chan i (.reparent status j) => some (wakeup chan i (.reparent status j))
  | wakeup chan i (.exit status) => some (wakeup chan i (.exit status))
  | forkParent np => some (forkParent np)
  | forkReady np => some (forkReady np)
  | exitReparent status i => some (exitReparent status i)
  | exitLast status => some (exitLast status)
  | waitScan x i havekids => some (waitScan x i havekids)
  | waitSleep x => some (waitSleep x)
  | tick _ ret | tickPush _ ret | tickYield ret => ret.core
  | user | locked _ | wakeup _ _ .user | wakeup _ _ (.locked _) | kill _ _ | forkAlloc _
  | relockOther _ | relockWait _ => none

def Ret.core : Ret → Option Pc
  | yield pc | sleep pc => pc.core
  | forkret | exit => none

def Thread.core : Thread → Option Pc
  | .at pc => pc.core
  | sched ret | resume ret => ret.core
  | absent => none

section
variable {H : Type} [DecidableEq H]

inductive ThreadEffect (s : State H) (p : Slot) (s' : State H) : Prop
  | move (t : Thread) (hm : Calm s.mem s'.mem) (ht : s'.thread = update s.thread p t)
      (hcore : t.core = (s.thread p).core)
  | forkAlloc (q : Slot) (hp : s.thread p = .at (.forkAlloc q.val))
      (hq : (s.mem.proc q).state = .unused) (hm : s'.mem = allocOne p q s.mem)
      (ht : s'.thread = update (update s.thread q (.resume .forkret)) p
        (.at (.forkParent q)))
  | forkFail (q : Slot) (hp : s.thread p = .at (.forkAlloc q.val))
      (hq : (s.mem.proc q).state = .unused) (hm : s'.mem = allocFail p q s.mem)
      (ht : s'.thread = update s.thread p (.at .user))
  | forkParent (np : Slot) (hp : s.thread p = .at (.forkParent np))
      (hm : s'.mem = s.mem.set np fun x => { x with parent := some p })
      (ht : s'.thread = update s.thread p (.at (.forkReady np)))
  | forkReady (np : Slot) (hp : s.thread p = .at (.forkReady np))
      (hm : s'.mem = s.mem.setState np .runnable)
      (ht : s'.thread = update s.thread p (.at .user))
  | exit (status : ℤ) (hp : s.thread p = .at .user) (hinit : p ≠ initproc) (hm : s'.mem = s.mem)
      (ht : s'.thread = update s.thread p (.at (.exitReparent status 0)))
  | reparent (status : ℤ) (q : Slot) (hp : s.thread p = .at (.exitReparent status q.val))
      (hq : (s.mem.proc q).parent = some p)
      (hm : s'.mem = s.mem.set q fun x => { x with parent := some initproc })
      (ht : s'.thread = update s.thread p
        (.at (.wakeup (.proc initproc) 0 (.reparent status (q.val + 1)))))
  | reparentSkip (status : ℤ) (q : Slot) (hp : s.thread p = .at (.exitReparent status q.val))
      (hq : (s.mem.proc q).parent ≠ some p) (hm : s'.mem = s.mem)
      (ht : s'.thread = update s.thread p (.at (.exitReparent status (q.val + 1))))
  | reparentEnd (status : ℤ) (i : ℕ) (chan : Chan) (hp : s.thread p = .at (.exitReparent status i))
      (hi : NPROC ≤ i) (hchan : ∀ q, (s.mem.proc p).parent = some q → chan = .proc q)
      (hm : s'.mem = s.mem)
      (ht : s'.thread = update s.thread p (.at (.wakeup chan 0 (.exit status))))
  | wake (chan : Chan) (ret : WakeRet) (q : Slot) (hp : s.thread p = .at (.wakeup chan q.val ret))
      (hm : Calm s.mem s'.mem) (hq : ∀ r, chan = .proc r → ¬ s'.mem.SleepsOn q r)
      (ht : s'.thread = update s.thread p (.at (.wakeup chan (q.val + 1) ret)))
  | wakeEnd (chan : Chan) (ret : WakeRet) (i : ℕ) (hp : s.thread p = .at (.wakeup chan i ret))
      (hi : NPROC ≤ i) (hm : s'.mem = s.mem)
      (ht : s'.thread = update s.thread p (.at ret.pc))
  | exitLast (status : ℤ) (hp : s.thread p = .at (.exitLast status))
      (hm : s'.mem = s.mem.set p fun x => { x with xstate := status, state := .zombie })
      (ht : s'.thread = update s.thread p (.sched .exit))
  | waitEnter (x : Bool) (pc : Pc) (hp : s.thread p = .at pc) (hcore : pc.core = none)
      (hm : s'.mem = s.mem)
      (ht : s'.thread = update s.thread p (.at (.waitScan x 0 false)))
  | waitNext (x havekids havekids' : Bool) (q : Slot)
      (hp : s.thread p = .at (.waitScan x q.val havekids))
      (hq : (s.mem.proc q).parent = some p → (s.mem.proc q).state ≠ .zombie) (hm : s'.mem = s.mem)
      (ht : s'.thread = update s.thread p (.at (.waitScan x (q.val + 1) havekids')))
  | reap (x havekids : Bool) (q : Slot) (hp : s.thread p = .at (.waitScan x q.val havekids))
      (hq : (s.mem.proc q).parent = some p) (hz : (s.mem.proc q).state = .zombie)
      (hm : s'.mem = freeproc q s.mem) (ht : s'.thread = update s.thread p (.at .user))
  | waitLeave (x havekids : Bool) (i : ℕ) (hp : s.thread p = .at (.waitScan x i havekids))
      (hm : s'.mem = s.mem) (ht : s'.thread = update s.thread p (.at .user))
  | waitFull (x havekids : Bool) (i : ℕ) (hp : s.thread p = .at (.waitScan x i havekids))
      (hi : NPROC ≤ i) (hm : s'.mem = s.mem)
      (ht : s'.thread = update s.thread p (.at (.waitSleep x)))
  | sleep (x : Bool) (hp : s.thread p = .at (.waitSleep x))
      (hm : s'.mem = s.mem.set p fun y => { y with chan := .proc p, state := .sleeping })
      (ht : s'.thread = update s.thread p (.sched (.sleep (.relockWait x))))

inductive Effect (h : H) (s s' : State H) : Prop
  | calm (hm : Calm s.mem s'.mem) (ht : s'.thread = s.thread) (hr : s'.run = s.run)
  | swtchIn (p : Slot) (hr : s.run h = none) (hm : s'.mem = s.mem)
      (ht : s'.thread = s.thread) (hr' : s'.run = update s.run h (some p))
  | swtchOut (p : Slot) (ret : Ret) (hr : s.run h = some p) (hp : s.thread p = .sched ret)
      (hm : s'.mem = s.mem) (ht : s'.thread = update s.thread p (.resume ret))
      (hr' : s'.run = update s.run h none)
  | thread (p : Slot) (hr : s.run h = some p) (hr' : s'.run = s.run)
      (he : ThreadEffect s p s')

/-! ## The moves -/

variable {b : Build} {e : Event H} {s : State H} {h : H} {p : Slot} {m m' : Mem}

omit [DecidableEq H] in
theorem Inv.running_at (hI : Inv b s) (hr : s.run h = some p) {pc : Pc} (ht : s.thread p = .at pc) :
    (s.mem.proc p).state = .running := by
  refine hI.hand.running_of_live h p ?_
  rw [State.act_some hr, ht]
  rfl

theorem dispatch_calm {f : Proc → Proc} (hf : ProcCalm (m.proc p) (f (m.proc p)))
    (hp : (m.proc p).state = .runnable) : Calm m ((m.set p f).setState p .running) := by
  have hset : Calm m (m.set p f) := .set hf
  refine hset.trans (.setState rfl ?_ (by simp))
  rw [(hset.proc p).stage, hp]
  rfl

theorem pushQueue_calm {q : ℕ} (hm : pushQueue p q m = .ok m') : Calm m m' := by
  rw [pushQueue] at hm
  split at hm
  · cases hm
    have hset : Calm m (m.set p fun x => { x with
        ticksUsed := 0, currWaitTime := 0, inQueue := true, queuePosition := q }) :=
      .set ⟨rfl, rfl, rfl, rfl, rfl, fun _ h h' => ⟨h, h'⟩⟩
    exact ⟨hset.nextpid, hset.proc⟩
  · cases hm

theorem ageOne_calm (hm : ageOne p m = .ok m') : Calm m m' := by
  rw [ageOne] at hm
  split at hm
  · have hcalm := pushQueue_calm hm
    refine ⟨hcalm.nextpid.trans ?_, ?_⟩
    · simp only [removeQueue]
      split <;> rfl
    · intro q
      have hq := hcalm.proc q
      rwa [removeQueue_proc] at hq
  · cases hm
    exact .refl m

theorem fillOne_calm (hm : fillOne p m = .ok m') : Calm m m' := by
  rw [fillOne] at hm
  split at hm
  · exact pushQueue_calm hm
  · cases hm
    exact .refl m

theorem popQueue_calm {q : ℕ} (hm : popQueue q m = .ok (p, m')) : Calm m m' := by
  rw [popQueue] at hm
  split at hm
  · cases hm
  · cases hm
    have hset : Calm m (m.set p fun x => { x with inQueue := false }) :=
      .set ⟨rfl, rfl, rfl, rfl, rfl, fun _ h h' => ⟨h, h'⟩⟩
    exact ⟨hset.nextpid, hset.proc⟩

omit [DecidableEq H] in
theorem SchedMem.calm (hI : Inv b s) (hr : s.run h = none) (hm : SchedMem s h m) :
    Calm s.mem m := by
  cases hm with
  | same => exact .refl _
  | dispatch p hl hp => exact .setState rfl (by rw [hp]; rfl) (by simp)
  | niceness p n => exact .set ⟨rfl, rfl, rfl, rfl, rfl, fun _ h h' => ⟨h, h'⟩⟩
  | pbs p hl =>
    have hp := (hI.pbs_candidate hr hl).2.1
    exact dispatch_calm ⟨rfl, rfl, rfl, rfl, rfl, fun _ h h' => ⟨h, h'⟩⟩ hp
  | age p hl hm => exact ageOne_calm hm
  | fill p hm => exact fillOne_calm hm
  | pop q p hm => exact popQueue_calm hm
  | popped p hl =>
    have hp : (s.mem.proc p).state = .runnable := hI.sched.picked h p (by rw [hl]; rfl)
    exact dispatch_calm ⟨rfl, rfl, rfl, rfl, rfl, fun _ h h' => ⟨h, h'⟩⟩ hp

theorem wakeOne_calm (m : Mem) (chan : Chan) (q : Slot) : Calm m (wakeOne chan q m) := by
  unfold wakeOne
  split
  · next hq => exact .setState rfl (by rw [hq.1]; rfl) (by simp)
  · exact .refl m

theorem wakeOne_woken (m : Mem) (chan : Chan) (q r : Slot) (hr : chan = .proc r) :
    ¬ (wakeOne chan q m).SleepsOn q r := by
  rintro ⟨hs, hc⟩
  unfold wakeOne at hs hc
  split at hs
  · simp at hs
  · next hq =>
    rw [if_neg hq] at hc
    exact hq ⟨hs, hc.trans hr.symm⟩

theorem killOne_calm (m : Mem) (pid : ℕ) (q : Slot) : Calm m (killOne pid q m) := by
  unfold killOne
  split
  · refine .set ⟨rfl, rfl, rfl, rfl, ?_, ?_⟩
    · dsimp only
      split
      · next hq =>
        rw [hq]
        rfl
      · rfl
    · intro r hs hc
      split at hs
      · cases hs
      · exact ⟨hs, hc⟩
  · exact .refl m

theorem updateTime_calm (m : Mem) (q : Slot) : Calm m (updateTime q m) :=
  .set ⟨rfl, rfl, rfl, rfl, rfl, fun _ h h' => ⟨h, h'⟩⟩

theorem Pc.Goes.core_eq {pc pc' : Pc} (hpc : pc.Goes pc') : pc'.core = pc.core := by
  cases hpc <;> rfl

/-- Where the timer path goes matters only when it is left. -/
theorem core_tickNext (m : Mem) (i : ℕ) (ret : Pc) : (tickNext m p i ret).core = ret.core := by
  unfold tickNext
  repeat' split
  all_goals rfl

theorem parentChan_eq {q : Slot} (hq : (m.proc p).parent = some q) : parentChan m p = .proc q := by
  rw [parentChan, hq]

omit [DecidableEq H] in
theorem ThreadMem.effect (hI : Inv b s) (hr : s.run h = some p) {t t' : Thread} {s' : State H}
    (hp : s.thread p = t) (hm : ThreadMem b e s h p t s'.mem t')
    (ht : s'.thread = update s.thread p t') : ThreadEffect s p s' := by
  have hmove : Calm s.mem s'.mem → t'.core = t.core → ThreadEffect s p s' :=
    fun hcalm hcore => .move t' hcalm ht (by rw [hp, hcore])
  generalize hm' : s'.mem = m at hm hmove
  cases hm with
  | goes hpc => exact hmove (.refl _) hpc.core_eq
  | yield | tickYield =>
    have hrun := hI.running_at hr hp
    exact hmove (.setState rfl (by rw [hrun]; rfl) (by simp)) rfl
  | sleep =>
    have hrun := hI.running_at hr hp
    refine hmove (.set ⟨rfl, rfl, rfl, rfl, ?_, ?_⟩) rfl
    · rw [hrun]
      rfl
    · intro r _ hc
      cases hc
  | waitSleep => exact .sleep _ hp hm' ht
  | yielded | forkret => exact hmove (.refl _) rfl
  | slept => exact hmove (.set ⟨rfl, rfl, rfl, rfl, rfl, fun _ _ hc => by cases hc⟩) rfl
  | wake q =>
    refine .wake _ _ q hp (by rw [hm']; exact wakeOne_calm _ _ _) ?_ ht
    intro r hchan
    rw [hm']
    exact wakeOne_woken s.mem _ q r hchan
  | wakeSelf q hq =>
    -- the process itself is `RUNNING`, so `wakeup` may skip it
    obtain rfl := Option.some.inj (hq.symm.trans (hI.cpu_at hr hp).proc)
    refine .wake _ _ q hp (by rw [hm']; exact .refl _) ?_ ht
    rintro r - ⟨hs, -⟩
    rw [hm'] at hs
    exact absurd ((hI.running_at hr hp).symm.trans hs) (by simp)
  | wakeEnd hi => exact .wakeEnd _ _ _ hp hi hm' ht
  | kill q he hpc => exact hmove (killOne_calm _ _ _) hpc.core_eq
  | setkilled | setPriority | tick =>
    exact hmove (.set ⟨rfl, rfl, rfl, rfl, rfl, fun _ h h' => ⟨h, h'⟩⟩) rfl
  | forkFail q he hq => exact .forkFail q hp hq hm' ht
  | forkParent np => exact .forkParent np hp hm' ht
  | forkReady np => exact .forkReady np hp hm' ht
  | exit hinit => exact .exit _ hp hinit hm' ht
  | reparent q hq => exact .reparent _ q hp hq hm' ht
  | reparentSkip q hq => exact .reparentSkip _ q hp hq hm' ht
  | reparentEnd hi => exact .reparentEnd _ _ _ hp hi (fun _ hq => parentChan_eq hq) hm' ht
  | exitLast => exact .exitLast _ hp hm' ht
  | waitEnter hpc =>
    refine .waitEnter _ _ hp ?_ hm' ht
    rcases hpc with rfl | rfl <;> rfl
  | waitNext q hq => exact .waitNext _ _ _ q hp hq hm' ht
  | reap q hq hz => exact .reap _ _ q hp hq hz hm' ht
  | waitLeave => exact .waitLeave _ _ _ hp hm' ht
  | waitFull hi => exact .waitFull _ _ _ hp hi hm' ht
  | tickNext => exact hmove (.refl _) (core_tickNext _ _ _)
  | tickPush hm =>
    have hset : Calm s.mem (s.mem.set p fun x => { x with ticksUsed := 0 }) :=
      .set ⟨rfl, rfl, rfl, rfl, rfl, fun _ h h' => ⟨h, h'⟩⟩
    exact hmove (hset.trans (pushQueue_calm hm)) rfl
  | settickets =>
    refine hmove (sysSettickets_induction (.refl _) ?_) rfl
    intro m q _ hm
    exact hm.trans (.set ⟨rfl, rfl, rfl, rfl, rfl, fun _ h h' => ⟨h, h'⟩⟩)

theorem HandlerMem.calm (hm : HandlerMem m m') : Calm m m' := by
  cases hm with
  | same => exact .refl m
  | wake chan q => exact wakeOne_calm m chan q
  | ticks => exact ⟨rfl, fun _ => .refl _⟩
  | time q => exact updateTime_calm m q

theorem step_effect (hI : Inv b s) (e : Event H) :
    (step b s e).Ensures (fun _ => True) (Effect e.hart s) := by
  refine (step_moves e).mono ?_
  intro s' hs
  cases hs with
  | sched h r he hr hm ht hrun => exact .calm (hm.calm hI hr) ht hrun
  | enter h r p l he hr hl hm ht hrun hspc =>
    subst he
    exact .swtchIn p hr hm ht hrun
  | leave h p ret he hr hp hm ht hrun hspc =>
    subst he
    exact .swtchOut p ret hr hp hm ht hrun
  | thread h p t he hr hm ht hrun hspc =>
    subst he
    exact .thread p hr hrun (hm.effect hI hr rfl ht)
  | fork h ok p q he hr hp hq hm ht hrun hspc =>
    subst he
    exact .thread p hr hrun (.forkAlloc q hp hq hm ht)
  | handler hm ht hrun hspc => exact .calm hm.calm ht hrun

end
end Xv6.Sched
