import Xv6.Sched.OneHart

/-! # Time slices of MLFQ

The timer branch of `usertrap` for one process `p` on one hart: the alarm, `yield()`, and then the
MLFQ part. The number of such interrupts is kept since `p` was queued at level `q`, and when `p`
first leaves that level, or the end of its slice queues it there anew, the number it had then and
its new level.
-/

namespace Xv6.Sched
set_option autoImplicit false
open Function (update_self update_of_ne)

/-- How far the timer interrupt that `p` has taken in user mode has come. -/
inductive Stage where
  | user
  | yielding
  | ticking
  deriving DecidableEq

structure Slice where
  kernel : State Unit
  stage : Stage
  maxAlarmTicks : ℤ
  alarmTicks : ℤ
  /-- The timer interrupts taken in user mode, and those that have returned to user mode. -/
  taken : ℕ
  done : ℕ
  /-- When `p` left level `q`, or came to the end of its slice: the number of interrupts taken, and
  the new level. -/
  left : Option (ℕ × ℕ)

namespace Slice

inductive Event where
  | trap
  | branch
  | sigalarm (n : ℤ)
  | sigreturn
  | kernel (e : Sched.Event Unit)

section
variable (p : Slot) (q : ℕ)

/-- The hart executes `p` in user mode, or in kernel code that holds no spinlock. -/
def InUser (w : Slice) : Prop := w.kernel.run () = some p ∧ w.kernel.thread p = .at .user

instance (w : Slice) : Decidable (InUser p w) := inferInstanceAs (Decidable (_ ∧ _))

def counted (w : Slice) : ℤ :=
  if w.maxAlarmTicks ≥ 1 ∧ w.alarmTicks > -1 then w.alarmTicks + 1 else w.alarmTicks

/-- The timer branch returns to the alarm handler, without `yield()` and the MLFQ part. -/
def Fires (w : Slice) : Prop := w.maxAlarmTicks ≥ 1 ∧ w.counted = w.maxAlarmTicks

instance (w : Slice) : Decidable w.Fires := inferInstanceAs (Decidable (_ ∧ _))

/-- The calls `p` can start outside the timer branch, where a `yield()` is that of
`set_static_priority`; back from the `yield()` of the branch it only exits if it has been killed. -/
def mayCall (w : Slice) : Call → Bool
  | .exit status => w.stage ≠ .yielding || ((w.kernel.mem.proc p).killed && status = -1)
  | _ => w.stage ≠ .yielding

/-- `p` has pushed itself at the end of its slice; from level 4 that is to level 4. -/
def Pushed (w : Slice) (k : State Unit) : Prop :=
  w.kernel.thread p = .at (.tickPush true .user) ∧ k.thread p = .at (.tickYield .user)

instance (w : Slice) (k : State Unit) : Decidable (w.Pushed p k) :=
  inferInstanceAs (Decidable (_ ∧ _))

def observe (w : Slice) (k : State Unit) : Slice :=
  let back := w.stage = .ticking ∧ k.thread p = .at .user
  { w with
    kernel := k
    stage := if back then .user else w.stage
    done := if back then w.taken else w.done
    left := if w.left = none ∧ ((k.mem.proc p).queuePosition ≠ q ∨ w.Pushed p k) then
        some (w.taken, (k.mem.proc p).queuePosition)
      else w.left }

def step (w : Slice) : Event → Outcome Failure Slice
  | .trap =>
    if w.stage = .user ∧ w.InUser p then
      if w.Fires then pure { w with alarmTicks := -1, taken := w.taken + 1, done := w.taken + 1 }
      else do
        let k ← Sched.step .mlfq w.kernel (.call () .yield)
        pure { w with
          kernel := k, stage := .yielding, alarmTicks := w.counted, taken := w.taken + 1 }
    else .blocked
  | .branch =>
    if w.stage = .yielding ∧ w.InUser p ∧ (w.kernel.mem.proc p).killed = false then do
      let k ← Sched.step .mlfq w.kernel (.call () .tick)
      pure { w with kernel := k, stage := .ticking }
    else .blocked
  | .sigalarm n =>
    if w.stage = .user ∧ w.InUser p then
      pure (if n ≥ 0 then { w with alarmTicks := 0, maxAlarmTicks := n } else w)
    else .blocked
  | .sigreturn =>
    if w.stage = .user ∧ w.InUser p then
      pure (if w.alarmTicks = -1 then { w with alarmTicks := 0 } else w)
    else .blocked
  | .kernel (.call h c) =>
    if w.kernel.run () = some p ∧ w.mayCall p c = false then .blocked
    else do
      let k ← Sched.step .mlfq w.kernel (.call h c)
      pure (w.observe p q k)
  | .kernel e => do
    let k ← Sched.step .mlfq w.kernel e
    pure (w.observe p q k)

/-- The runs from the states in which `p` has just been queued at level `q`, and is not inside the
timer branch. -/
def sys : TransSys Slice Event where
  init := fun w => (Sched.sys .mlfq Unit).Reachable w.kernel ∧
    (w.kernel.mem.proc p).inQueue = true ∧ (w.kernel.mem.proc p).queuePosition = q ∧
    (w.kernel.mem.proc p).ticksUsed = 0 ∧
    w.stage = .user ∧ w.taken = 0 ∧ w.done = 0 ∧ w.left = none
  step := fun w a w' => step p q w a = .ok w'

/-- The thread of `r` is not about to sleep if it is that of `p`, nor to give the slot of `p` to a
new process. -/
def Spares (s : State Unit) : Option Slot → Prop
  | none => True
  | some r =>
    (r = p → s.thread p ≠ .at (.waitSleep false) ∧ s.thread p ≠ .at (.waitSleep true)) ∧
      (s.thread r = .at (.forkAlloc p.val) → (s.mem.proc p).state ≠ .unused)

/-- `p` takes no timer interrupt in kernel code and does not sleep; meanwhile it is not aged, and
its slot is not given to another process. -/
def Awake (s : State Unit) : Sched.Event Unit → Prop
  | .call _ .tick | .call _ (.sleep _) => s.run () ≠ some p
  | .go _ _ => Spares p s (s.run ())
  | .sched _ _ => s.spc () = .loop (.age p.val) → ¬ Aged s.mem p
  | _ => True

/-- `p` takes timer interrupts only in user mode, with the queues above level `q` empty, and does
not sleep. -/
def Undisturbed (w : Slice) : Event → Prop
  | .trap => ∀ i < q, w.kernel.mem.queue.size i = 0
  | .kernel e => Awake p w.kernel e
  | _ => True

/-- The same, and no interrupt makes the alarm of `p` fire. -/
def NoAlarm (w : Slice) (a : Event) : Prop := Undisturbed p q w a ∧ (a = .trap → ¬ w.Fires)

/-- `p` leaves level `q` at its `max_ticks[q]`-th interrupt, and for the next level below. -/
def Kept (w : Slice) : Prop :=
  (∀ n l, w.left = some (n, l) → n = maxTicks q ∧ l = min (q + 1) 4) ∧
    (maxTicks q ≤ w.done → w.left ≠ none)

end

/-! ## What a kernel step does to the level of `p` -/

variable {p : Slot} {q : ℕ} {s s' : State Unit} {e : Sched.Event Unit} {w w' : Slice}

variable {r : Slot} {k : State Unit}

theorem ageOne_other {m m' : Mem} (hm : ageOne r m = .ok m') (hr : p ≠ r) :
    m'.proc p = m.proc p := by
  simp only [ageOne] at hm
  split at hm
  · rw [pushQueue_other hm hr, removeQueue_proc]
  · cases hm
    rfl

theorem schedMove_level {m : Mem} (hm : SchedMove () s m)
    (ha : s.spc () = .loop (.age p.val) → ¬ Aged s.mem p) :
    (m.proc p).queuePosition = (s.mem.proc p).queuePosition ∧
      ((m.proc p).ticksUsed = 0 ∨ (m.proc p).ticksUsed = (s.mem.proc p).ticksUsed ∧
        ((s.mem.proc p).inQueue = false → (m.proc p).inQueue = false)) := by
  cases hm with
  | same hm =>
    refine ⟨hm.queuePosition p, .inr ⟨hm.ticksUsed p, ?_⟩⟩
    rw [hm.inQueue p]
    exact id
  | age r hspc hr hm =>
    have hpr : p ≠ r := by
      rintro rfl
      exact ha hspc hr
    rw [ageOne_other hm hpr]
    exact ⟨rfl, .inr ⟨rfl, id⟩⟩
  | fill r hst hin hm =>
    by_cases hpr : p = r
    · subst hpr
      exact ⟨(pushQueue_self hm).1, .inl (pushQueue_self hm).2⟩
    · rw [pushQueue_other hm hpr]
      exact ⟨rfl, .inr ⟨rfl, id⟩⟩
  | pop i r hm =>
    refine ⟨(popQueue_level hm p).1, .inr ⟨(popQueue_level hm p).2, ?_⟩⟩
    intro hin
    by_cases hpr : p = r
    · rw [hpr, popQueue_self hm]
    · rw [popQueue_other hm hpr, hin]

/-- `p` is at level `q` and is not going to push itself one level down. -/
structure Settled (p : Slot) (q : ℕ) (s : State Unit) : Prop where
  level : (s.mem.proc p).queuePosition = q
  pushes : (s.thread p).pushes = false

theorem Awake.not_reused {h : Unit} {ok : Bool} (ha : Awake p s (.go h ok)) (hr : s.run () = some r)
    (ht : s.thread r = .at (.forkAlloc p.val)) : (s.mem.proc p).state ≠ .unused := by
  rw [Awake, hr] at ha
  exact ha.2 ht

theorem Settled.same (hp : Settled p q s) (hproc : s'.mem.proc p = s.mem.proc p)
    (hpush : (s'.thread p).pushes = false) :
    Settled p q s' ∧ ((s'.mem.proc p).ticksUsed = 0 ∨
      (s'.mem.proc p).ticksUsed = (s.mem.proc p).ticksUsed) := by
  rw [hproc]
  exact ⟨⟨by rw [hproc, hp.level], hpush⟩, .inr rfl⟩

theorem Settled.step (hp : Settled p q s) (hI : OneHart s)
    (hticks : (s.mem.proc p).ticksUsed < maxTicks q) (hs : Sched.step .mlfq s e = .ok s')
    (ha : Awake p s e) :
    Settled p q s' ∧ ((s'.mem.proc p).ticksUsed = 0 ∨
      (s'.mem.proc p).ticksUsed = (s.mem.proc p).ticksUsed) := by
  cases (step_move e).of_ok hs with
  | still hm ht hf hst =>
    refine ⟨⟨(hm.queuePosition p).trans hp.level, ?_⟩, .inr (hm.ticksUsed p)⟩
    rw [ht, hp.pushes]
  | sched h r heq hr hf =>
    subst heq
    obtain ⟨hlevel, hused⟩ := schedMove_level hf.mem ha
    refine ⟨⟨hlevel.trans hp.level, ?_⟩, hused.imp id And.left⟩
    rw [hf.thread, hp.pushes]
  | enter h r p' l heq hr hl hm ht hrun hspc =>
    refine hp.same (by rw [hm]) ?_
    rw [ht, hp.pushes]
  | leave h r ret hr hr' hm ht hrun hspc =>
    refine hp.same (by rw [hm]) ?_
    by_cases hpr : p = r
    · have hold := hp.pushes
      rw [hpr, hr'] at hold
      rw [ht, hpr, update_self]
      exact hold
    · rw [ht, update_of_ne hpr, hp.pushes]
  | own h r t hr hr' hm ht hf hpush hwait =>
    refine ⟨⟨(hm.queuePosition p).trans hp.level, ?_⟩, .inr (hm.ticksUsed p)⟩
    by_cases hpr : p = r
    · subst hpr
      rw [ht, update_self]
      by_contra hpushes
      rw [Bool.not_eq_false] at hpushes
      rcases hpush hpushes with hold | ⟨i, ret, -, -, -, hup⟩
      · rw [hI.later p] at hold
        cases hold
      · rw [hp.level] at hup
        omega
    · rw [ht, update_of_ne hpr, hp.pushes]
  | fork h ok r r' heq hr hr' hunused hm ht hf =>
    subst heq
    have hne : p ≠ r' := by
      rintro rfl
      exact ha.not_reused hr hr' hunused
    refine hp.same (by simp [hm, allocOne, hne]) ?_
    by_cases hpr : p = r
    · rw [ht, hpr, update_self]
      rfl
    · rw [ht, update_of_ne hpr, update_of_ne hne, hp.pushes]
  | forkFail h ok r r' heq hr hr' hunused hm ht hf =>
    subst heq
    have hne : p ≠ r' := by
      rintro rfl
      exact ha.not_reused hr hr' hunused
    refine hp.same (by simp [hm, allocFail, freeproc, allocOne, hne]) ?_
    by_cases hpr : p = r
    · rw [ht, hpr, update_self]
      rfl
    · rw [ht, update_of_ne hpr, hp.pushes]
  | tick h r pc heq hr hr' hpc hm ht hf =>
    subst heq
    have hne : p ≠ r := by
      rintro rfl
      exact ha hr
    refine hp.same (by rw [hm, Mem.set_proc_of_ne _ _ hne]) ?_
    rw [ht, update_of_ne hne, hp.pushes]
  | push h r demote ret hr hr' hm ht hf =>
    by_cases hpr : p = r
    · subst hpr
      have hold := hp.pushes
      rw [hr'] at hold
      -- the push of a settled process is the one at its own level
      obtain ⟨rfl, hret⟩ : demote = false ∧ ret.pushes = false := by
        simpa [Thread.pushes, Pc.pushes] using hold
      refine ⟨⟨(pushQueue_self hm).1.trans hp.level, ?_⟩, .inl (pushQueue_self hm).2⟩
      rw [ht, update_self]
      exact hret
    · refine hp.same (by rw [pushQueue_other hm hpr, Mem.set_proc_of_ne _ _ hpr]) ?_
      rw [ht, update_of_ne hpr, hp.pushes]

/-! ## A process that has yielded is queued again -/

/-- The scheduler has still to look at `p` in its filling loop. -/
def BeforeFill (p : Slot) : SchedPc → Prop
  | .loop (.age _) | .ret _ (.age _) => True
  | .loop (.fill i) => i ≤ p.val
  | _ => False

/-- `p` has called `yield()` in user mode and has not been queued since. -/
structure Unqueued (p : Slot) (s : State Unit) : Prop where
  state : (s.mem.proc p).state = .runnable
  inQueue : (s.mem.proc p).inQueue = false
  place : s.run () = some p ∧ s.thread p = .sched (.yield .user) ∨
    s.run () = none ∧ BeforeFill p (s.spc ())

theorem fillOne_state {m m' : Mem} (hm : fillOne r m = .ok m') (i : Slot) :
    (m'.proc i).state = (m.proc i).state := by
  simp only [fillOne] at hm
  split at hm
  · exact pushQueue_state hm i
  · cases hm
    rfl

theorem Unqueued.sched_step (hp : Unqueued p s) (hpc : BeforeFill p (s.spc ()))
    (hm : MlfqMove () s s') (hnone : s'.run () = none)
    (hin : (s'.mem.proc p).inQueue = false) : Unqueued p s' ∨ (s'.mem.proc p).ticksUsed = 0 := by
  cases hm with
  | age i hl hl' hst =>
    refine .inl ⟨(hst p).trans hp.state, hin, .inr ⟨hnone, ?_⟩⟩
    rcases hl' with hl' | hl'
    · rw [hl']
      trivial
    · rw [hl']
      exact Nat.zero_le _
  | fill r hl hl' hm =>
    rw [hl] at hpc
    have hle : r.val ≤ p.val := hpc
    by_cases hpr : p = r
    · subst hpr
      rw [fillOne, if_pos ⟨hp.state, hp.inQueue⟩] at hm
      exact .inr (pushQueue_self hm).2
    · refine .inl ⟨(fillOne_state hm p).trans hp.state, hin, .inr ⟨hnone, ?_⟩⟩
      have hne : p.val ≠ r.val := fun h => hpr (Fin.ext h)
      rw [hl']
      change r.val + 1 ≤ p.val
      omega
  | filled i hi hl hl' =>
    rw [hl] at hpc
    have hle : i ≤ p.val := hpc
    omega
  | pop i hl hl' | popCall i r hl hl' hm | popped r hl hl' hm | enter r l hl hl' =>
    rw [hl] at hpc
    exact hpc.elim
  | back r l hl hl' hm =>
    refine .inl ⟨by rw [hm, hp.state], hin, .inr ⟨hnone, ?_⟩⟩
    rw [hl']
    rw [hl] at hpc
    cases l with
    | age i => trivial
    | _ => exact hpc.elim

theorem Unqueued.step (hp : Unqueued p s) (hI : OneHart s) (hs : Sched.step .mlfq s e = .ok s')
    (ha : Awake p s e) : Unqueued p s' ∨ (s'.mem.proc p).ticksUsed = 0 := by
  rcases hp.place with ⟨hrun, hthread⟩ | ⟨hrun, hpc⟩
  · have hself : ∀ {r : Slot}, s.run () = some r → r = p := by
      intro r hr
      exact Option.some.inj (hr.symm.trans hrun)
    cases (step_move e).of_ok hs with
    | still hm ht hf hst =>
      refine .inl ⟨hst p hp.state, (hm.inQueue p).trans hp.inQueue, .inl ⟨?_, ?_⟩⟩
      · rw [hf.run, hrun]
      · rw [ht, hthread]
    | sched h r heq hr hf | enter h r p' l heq hr hl hm ht hrun' hspc =>
      rw [show s.run () = none from hr] at hrun
      cases hrun
    | leave h r ret hr hr' hm ht hrun' hspc =>
      obtain rfl := hself hr
      refine .inl ⟨by rw [hm, hp.state], by rw [hm, hp.inQueue], .inr ⟨?_, ?_⟩⟩
      · rw [hrun', update_self]
      · rw [hspc, hI.home r hrun]
        trivial
    | own h r t hr hr' hm ht hf hpush hwait =>
      obtain rfl := hself hr
      exact absurd hthread (hr' _)
    | fork h ok r r' heq hr hr' hunused hm ht hf | forkFail h ok r r' heq hr hr' hunused hm ht hf
    | tick h r pc heq hr hr' hpc hm ht hf | push h r demote ret hr hr' hm ht hf =>
      obtain rfl := hself hr
      rw [hthread] at hr'
      cases hr'
  · have hidle : ∀ {r : Slot}, s.run () ≠ some r := by
      intro r hr
      rw [hrun] at hr
      cases hr
    cases (step_move e).of_ok hs with
    | still hm ht hf hst =>
      refine .inl ⟨hst p hp.state, (hm.inQueue p).trans hp.inQueue, .inr ⟨?_, ?_⟩⟩
      · rw [hf.run, hrun]
      · rw [hf.spc]
        exact hpc
    | sched h r heq hr hf =>
      subst heq
      have hnone : s'.run () = none := (congrFun hf.run ()).trans hrun
      rcases (schedMove_level hf.mem ha).2 with hused | ⟨-, hin⟩
      · exact .inr hused
      · exact hp.sched_step hpc (sched_mlfq hI.cycle.build hs) hnone (hin hp.inQueue)
    | enter h r p' l heq hr hl hm ht hrun' hspc =>
      rw [show s.spc () = .swtch p' l from hl] at hpc
      exact hpc.elim
    | leave h r ret hr | own h r t hr | fork h ok r r' heq hr | forkFail h ok r r' heq hr
    | tick h r pc heq hr | push h r demote ret hr => exact absurd hr hidle

/-! ## The slice along a run -/

def used (p : Slot) (w : Slice) : ℕ := (w.kernel.mem.proc p).ticksUsed

/-- While `p` has not left level `q`. At level 0 the first interrupt is the last one; above, the
ticks of `p` are reset before each of them is counted. -/
inductive Live (p : Slot) (q : ℕ) (w : Slice) : Prop
  | user (hst : w.stage = .user) (hp : Settled p q w.kernel) (hused : w.used p ≤ 1)
      (h0 : q = 0 → w.taken = 0 ∧ w.done = 0 ∧ w.used p = 0)
  | yielding (hst : w.stage = .yielding) (hp : Settled p q w.kernel) (hused : w.used p ≤ 1)
      (h0 : q = 0 → w.taken = 1 ∧ w.done = 0 ∧ w.used p = 0)
      (hq : w.used p = 0 ∨ Unqueued p w.kernel)
  | ticking (hst : w.stage = .ticking) (hpos : 0 < q) (hp : Settled p q w.kernel)
      (hused : w.used p ≤ 1)
  | last (hst : w.stage = .ticking) (hq : q = 0) (htaken : w.taken = 1) (hdone : w.done = 0)
      (hrun : w.kernel.run () = some p) (hlevel : (w.kernel.mem.proc p).queuePosition = 0)
      (ht : w.kernel.thread p = .at (.tick 0 .user) ∧ 1 ≤ w.used p ∨
        w.kernel.thread p = .at (.tickPush true .user))

structure Inv (p : Slot) (q : ℕ) (w : Slice) : Prop where
  hart : OneHart w.kernel
  slice : q = 0 ∧ w.left = some (1, 1) ∨ w.left = none ∧ w.Live p q

theorem used_lt (hused : w.used p ≤ 1) (h0 : q = 0 → w.used p = 0) : w.used p < maxTicks q := by
  rcases Nat.eq_zero_or_pos q with rfl | hq
  · rw [h0 rfl]
    decide
  · have h2 : maxTicks 1 ≤ maxTicks q := Nat.pow_le_pow_right (by decide) hq
    have h1 : maxTicks 1 = 2 := rfl
    omega

theorem Live.done_eq_zero (hw : Live p q w) (hq : q = 0) : w.done = 0 := by
  cases hw with
  | user hst hp hused h0 => exact (h0 hq).2.1
  | yielding hst hp hused h0 hun => exact (h0 hq).2.1
  | ticking hst hpos hp hused => omega
  | last hst hq htaken hdone hrun hlevel ht => exact hdone

theorem Inv.kept_iff (hI : Inv p q w) : w.Kept q ↔ q = 0 ∨ w.done < maxTicks q := by
  rcases hI.slice with ⟨rfl, hleft⟩ | ⟨hleft, hlive⟩
  · refine ⟨fun _ => .inl rfl, fun _ => ⟨?_, by simp [hleft]⟩⟩
    intro n l hnl
    rw [hleft] at hnl
    cases hnl
    decide
  · have hkept : w.Kept q ↔ w.done < maxTicks q := by simp [Kept, hleft]
    rw [hkept]
    constructor
    · exact .inr
    · rintro (hq | hdone)
      · rw [hlive.done_eq_zero hq]
        exact Nat.two_pow_pos q
      · exact hdone

/-! ## Steps inside the kernel -/

theorem observe_left (hl : w.left = none) (hk : (k.mem.proc p).queuePosition = q)
    (hpush : ¬ w.Pushed p k) : (w.observe p q k).left = none := by
  simp [observe, hl, hk, hpush]

theorem Settled.not_pushed (hp : Settled p q w.kernel) : ¬ w.Pushed p k := by
  rintro ⟨hthread, -⟩
  have hpush := hp.pushes
  rw [hthread] at hpush
  cases hpush

theorem observe_stage (hst : w.stage ≠ .ticking) :
    (w.observe p q k).stage = w.stage ∧ (w.observe p q k).done = w.done := by
  simp [observe, hst]

theorem observe_used (h : (k.mem.proc p).ticksUsed = 0 ∨
    (k.mem.proc p).ticksUsed = (w.kernel.mem.proc p).ticksUsed) :
    (w.observe p q k).used p ≤ w.used p := by
  change (k.mem.proc p).ticksUsed ≤ (w.kernel.mem.proc p).ticksUsed
  omega

theorem timer_step {pc : Pc} (hr : s.run () = some p) (ht : s.thread p = .at pc)
    (hpc : pc.timer = true) (hs : Sched.step .mlfq s e = .ok s') :
    (∃ ok, pcStep .mlfq () p ok s pc = .ok s') ∨
      SameQueues s.mem s'.mem ∧ s'.thread = s.thread ∧ s'.run = s.run := by
  cases e with
  | sched h r =>
    simp only [Sched.step] at hs
    split at hs
    · next hnone => exact absurd (hr.symm.trans hnone) (by simp)
    · cases hs
  | call h c =>
    simp only [Sched.step, show s.run h = some p from hr, ht, callStep_timer hpc] at hs
    cases hs
  | go h ok =>
    simp only [Sched.step, show s.run h = some p from hr, ht] at hs
    exact .inl ⟨ok, hs⟩
  | intrWakeup | intrTicks | intrTime | setIntr =>
    have hh := (interrupt_handled rfl).of_ok hs
    exact .inr ⟨hh.mem.sameQueues, hh.thread, hh.run⟩

theorem last_step (hst : w.stage = .ticking) (hleft : w.left = none) (htaken : w.taken = 1)
    (hdone : w.done = 0) (hrun : w.kernel.run () = some p)
    (hlevel : (w.kernel.mem.proc p).queuePosition = 0)
    (ht : w.kernel.thread p = .at (.tick 0 .user) ∧ 1 ≤ w.used p ∨
      w.kernel.thread p = .at (.tickPush true .user)) (hs : Sched.step .mlfq w.kernel e = .ok k) :
    (w.observe p 0 k).left = some (1, 1) ∨
      (w.observe p 0 k).left = none ∧ (w.observe p 0 k).Live p 0 := by
  have hlast : ∀ k : State Unit, k.run () = some p → (k.mem.proc p).queuePosition = 0 →
      (k.thread p = .at (.tick 0 .user) ∧ 1 ≤ (k.mem.proc p).ticksUsed ∨
        k.thread p = .at (.tickPush true .user)) →
      (w.observe p 0 k).left = none ∧ (w.observe p 0 k).Live p 0 := by
    intro k hrun hlevel ht
    have hne : k.thread p ≠ .at .user := by
      rcases ht with ⟨ht, -⟩ | ht <;> simp [ht]
    have hpush : ¬ w.Pushed p k := by
      rintro ⟨-, hyield⟩
      rcases ht with ⟨ht, -⟩ | ht <;> simp [ht] at hyield
    refine ⟨observe_left hleft hlevel hpush, .last ?_ rfl htaken ?_ hrun hlevel ht⟩
    · simp [observe, hst, hne]
    · simp [observe, hne, hdone]
  rcases ht with ⟨ht, hused⟩ | ht
  · rcases timer_step hrun ht rfl hs with ⟨ok, hgo⟩ | ⟨hm, hthread, hrun'⟩
    · have htick : tickStep p 0 .user w.kernel =
          pure (w.kernel.goThread p (.at (.tickPush true .user))) := by
        have hup : (w.kernel.mem.proc p).ticksUsed ≥ maxTicks 0 := hused
        simp [tickStep, hlevel, hup]
      rw [pcStep, if_pos rfl, htick] at hgo
      cases hgo
      exact .inr (hlast _ hrun hlevel (.inr (by simp)))
    · refine .inr (hlast k (by rw [hrun', hrun]) ((hm.queuePosition p).trans hlevel) ?_)
      rw [hthread, hm.ticksUsed]
      exact .inl ⟨ht, hused⟩
  · rcases timer_step hrun ht rfl hs with ⟨ok, hgo⟩ | ⟨hm, hthread, hrun'⟩
    · have hgo : tickPushStep p true .user w.kernel = .ok k := hgo
      obtain ⟨m, hpush, hk⟩ := Outcome.bind_eq_ok hgo
      cases hk
      rw [if_pos rfl, hlevel] at hpush
      have hpos : (m.proc p).queuePosition = 1 := (pushQueue_self hpush).1
      exact .inl (by simp [observe, hleft, hpos, htaken])
    · refine .inr (hlast k (by rw [hrun', hrun]) ((hm.queuePosition p).trans hlevel) ?_)
      rw [hthread]
      exact .inr ht

theorem Inv.kernel_step (hI : Inv p q w) (hs : Sched.step .mlfq w.kernel e = .ok k)
    (ha : Awake p w.kernel e) : Inv p q (w.observe p q k) := by
  refine ⟨hI.hart.step hs, ?_⟩
  rcases hI.slice with ⟨hq, hleft⟩ | ⟨hleft, hlive⟩
  · exact .inl ⟨hq, by simp [observe, hleft]⟩
  · cases hlive with
    | user hst hp hused h0 =>
      obtain ⟨hp', hused'⟩ := hp.step hI.hart (used_lt hused fun h => (h0 h).2.2) hs ha
      have hle := observe_used (q := q) hused'
      obtain ⟨hstage, hdone⟩ := observe_stage (p := p) (q := q) (k := k) (w := w) (by simp [hst])
      refine .inr ⟨observe_left hleft hp'.level hp.not_pushed,
        .user (hstage.trans hst) hp' (hle.trans hused) ?_⟩
      intro hq
      obtain ⟨htaken, hdone0, hused0⟩ := h0 hq
      exact ⟨htaken, hdone.trans hdone0, by omega⟩
    | yielding hst hp hused h0 hq =>
      obtain ⟨hp', hused'⟩ := hp.step hI.hart (used_lt hused fun h => (h0 h).2.2) hs ha
      have hle := observe_used (q := q) hused'
      obtain ⟨hstage, hdone⟩ := observe_stage (p := p) (q := q) (k := k) (w := w) (by simp [hst])
      refine .inr ⟨observe_left hleft hp'.level hp.not_pushed,
        .yielding (hstage.trans hst) hp' (hle.trans hused) ?_ ?_⟩
      · intro hq
        obtain ⟨htaken, hdone0, hused0⟩ := h0 hq
        exact ⟨htaken, hdone.trans hdone0, by omega⟩
      · rcases hq with hzero | hun
        · exact .inl (by omega)
        · exact (hun.step hI.hart hs ha).symm
    | ticking hst hpos hp hused =>
      have h0 : q = 0 → w.used p = 0 := fun h => absurd h (by omega)
      obtain ⟨hp', hused'⟩ := hp.step hI.hart (used_lt hused h0) hs ha
      have hle := (observe_used (q := q) hused').trans hused
      refine .inr ⟨observe_left hleft hp'.level hp.not_pushed, ?_⟩
      by_cases hback : k.thread p = .at .user
      · exact .user (by simp [observe, hst, hback]) hp' hle fun h => absurd h (by omega)
      · exact .ticking (by simp [observe, hst, hback]) hpos hp' hle
    | last hst hq htaken hdone hrun hlevel ht =>
      subst hq
      exact (last_step hst hleft htaken hdone hrun hlevel ht hs).imp (fun h => ⟨rfl, h⟩) id

/-! ## The timer branch -/

theorem yield_ok (hr : s.run () = some p) (ht : s.thread p = .at .user)
    (hs : Sched.step .mlfq s (.call () .yield) = .ok s') :
    s'.mem = s.mem.setState p .runnable ∧ s'.run = s.run ∧
      s'.thread p = .sched (.yield .user) := by
  have hcall : Sched.step .mlfq s (.call () .yield) = yieldStep () p .user s := by
    simp [Sched.step, hr, ht, callStep, mayYield]
  rw [hcall] at hs
  have hyield : (yieldStep () p .user s).Ensures (fun _ => True) fun s' =>
      s'.mem = s.mem.setState p .runnable ∧ s'.run = s.run ∧
        s'.thread p = .sched (.yield .user) := by
    refine Outcome.ensures_bind (acquire_frame ?_)
    intro L C
    exact ⟨rfl, rfl, by simp⟩
  exact hyield.of_ok hs

theorem tick_ok (hr : s.run () = some p) (ht : s.thread p = .at .user)
    (hs : Sched.step .mlfq s (.call () .tick) = .ok s') :
    s'.mem = s.mem.set p (fun x => { x with ticksUsed := x.ticksUsed + 1 }) ∧ s'.run = s.run ∧
      s'.thread p = .at (.tick 0 .user) := by
  simp only [Sched.step, hr, ht, callStep] at hs
  split at hs
  · cases hs
    exact ⟨rfl, rfl, by simp⟩
  · cases hs

theorem Inv.trap (hI : Inv p q w) (hu : w.InUser p) (hst : w.stage = .user)
    (hs : Sched.step .mlfq w.kernel (.call () .yield) = .ok k) (n : ℤ) :
    Inv p q { w with kernel := k, stage := .yielding, alarmTicks := n, taken := w.taken + 1 } := by
  refine ⟨hI.hart.step hs, hI.slice.imp id ?_⟩
  rintro ⟨hleft, hlive⟩
  refine ⟨hleft, ?_⟩
  obtain ⟨hm, hrun, ht⟩ := yield_ok hu.1 hu.2 hs
  have hproc : k.mem.proc p = { w.kernel.mem.proc p with state := .runnable } := by
    rw [hm, Mem.setState, Mem.set_proc_self]
  cases hlive with
  | user _ hp hused h0 =>
    have hused' : (k.mem.proc p).ticksUsed = w.used p := by rw [hproc]; rfl
    have hp' : Settled p q k := ⟨by rw [hproc]; exact hp.level, by rw [ht]; rfl⟩
    have hnot : (w.kernel.mem.proc p).inQueue = false :=
      hI.hart.not_queued hu.1 (by rw [hu.2]; rfl)
    refine .yielding rfl hp' (hused'.trans_le hused) ?_ (.inr ⟨?_, ?_, .inl ⟨?_, ht⟩⟩)
    · intro hq
      obtain ⟨htaken, hdone, hzero⟩ := h0 hq
      exact ⟨by simp [htaken], hdone, hused'.trans hzero⟩
    · simp [hproc]
    · simp [hproc, hnot]
    · exact (congrFun hrun ()).trans hu.1
  | yielding h' | ticking h' | last h' =>
    rw [hst] at h'
    cases h'

theorem Inv.branch (hI : Inv p q w) (hu : w.InUser p) (hst : w.stage = .yielding)
    (hs : Sched.step .mlfq w.kernel (.call () .tick) = .ok k) :
    Inv p q { w with kernel := k, stage := .ticking } := by
  refine ⟨hI.hart.step hs, hI.slice.imp id ?_⟩
  rintro ⟨hleft, hlive⟩
  refine ⟨hleft, ?_⟩
  obtain ⟨hm, hrun, ht⟩ := tick_ok hu.1 hu.2 hs
  have hproc : k.mem.proc p =
      { w.kernel.mem.proc p with ticksUsed := (w.kernel.mem.proc p).ticksUsed + 1 } := by
    rw [hm, Mem.set_proc_self]
  cases hlive with
  | yielding _ hp hused h0 hq =>
    have hzero : (w.kernel.mem.proc p).ticksUsed = 0 := by
      rcases hq with hzero | hun
      · exact hzero
      · -- a process that is back in the timer branch has been queued since its `yield`
        rcases hun.place with ⟨-, hsched⟩ | ⟨hnone, -⟩
        · rw [hu.2] at hsched
          cases hsched
        · rw [hu.1] at hnone
          cases hnone
    have hused' : (k.mem.proc p).ticksUsed = 1 := by simp [hproc, hzero]
    have hlevel : (k.mem.proc p).queuePosition = q := by rw [hproc]; exact hp.level
    rcases Nat.eq_zero_or_pos q with rfl | hpos
    · obtain ⟨htaken, hdone, -⟩ := h0 rfl
      exact .last rfl rfl htaken hdone (hrun ▸ hu.1) hlevel (.inl ⟨ht, hused'.ge⟩)
    · exact .ticking rfl hpos ⟨hlevel, by rw [ht]; rfl⟩ hused'.le
  | user h' | ticking h' | last h' =>
    rw [hst] at h'
    cases h'

theorem Inv.alarm (hI : Inv p q w) (n m : ℤ) :
    Inv p q { w with alarmTicks := n, maxAlarmTicks := m } := by
  refine ⟨hI.hart, hI.slice.imp id ?_⟩
  rintro ⟨hleft, hlive⟩
  refine ⟨hleft, ?_⟩
  cases hlive with
  | user hst hp hused h0 => exact .user hst hp hused h0
  | yielding hst hp hused h0 hq => exact .yielding hst hp hused h0 hq
  | ticking hst hpos hp hused => exact .ticking hst hpos hp hused
  | last hst hq htaken hdone hrun hlevel ht => exact .last hst hq htaken hdone hrun hlevel ht

theorem Inv.step (hI : Inv p q w) {a : Event} (ha : NoAlarm p q w a)
    (hs : step p q w a = .ok w') : Inv p q w' := by
  cases a with
  | trap =>
    simp only [Slice.step] at hs
    split at hs
    · next hu =>
      rw [if_neg (ha.2 rfl)] at hs
      obtain ⟨k, hk, hw⟩ := Outcome.bind_eq_ok hs
      cases hw
      exact hI.trap hu.2 hu.1 hk _
    · cases hs
  | branch =>
    simp only [Slice.step] at hs
    split at hs
    · next hu =>
      obtain ⟨k, hk, hw⟩ := Outcome.bind_eq_ok hs
      cases hw
      exact hI.branch hu.2.1 hu.1 hk
    · cases hs
  | sigalarm n | sigreturn =>
    simp only [Slice.step] at hs
    split at hs
    · cases hs
      split
      · exact hI.alarm _ _
      · exact hI
    · cases hs
  | kernel e =>
    have hk : ∃ k, Sched.step .mlfq w.kernel e = .ok k ∧ w' = w.observe p q k := by
      cases e with
      | call h c =>
        simp only [Slice.step] at hs
        split at hs
        · cases hs
        · obtain ⟨k, hk, hw⟩ := Outcome.bind_eq_ok hs
          exact ⟨k, hk, (Outcome.ok.inj hw).symm⟩
      | _ =>
        obtain ⟨k, hk, hw⟩ := Outcome.bind_eq_ok hs
        exact ⟨k, hk, (Outcome.ok.inj hw).symm⟩
    obtain ⟨k, hk, rfl⟩ := hk
    exact hI.kernel_step hk ha.1

theorem inv_of_reachable (hw : ((sys p q).restrict (NoAlarm p q)).Reachable w) : Inv p q w := by
  refine hw.invariant ?_ ?_
  · rintro w ⟨hreach, hin, hlevel, hused, hst, htaken, hdone, hleft⟩
    have hI := oneHart_of_reachable hreach
    refine ⟨hI, .inr ⟨hleft, .user hst ⟨hlevel, ?_⟩ ?_ fun _ => ⟨htaken, hdone, hused⟩⟩⟩
    · -- a process that is about to push itself runs, so it is in no queue
      by_contra hpush
      rw [Bool.not_eq_false] at hpush
      have hwaits := hI.running p (hI.pushes p hpush) hin
      have hlater := hI.later p
      generalize w.kernel.thread p = t at hpush hwaits hlater
      cases t with
      | «at» pc =>
        cases pc with
        | tickYield ret => exact absurd (hlater.symm.trans hpush) (by simp)
        | _ => cases hwaits
      | sched ret => exact absurd (hlater.symm.trans hpush) (by simp)
      | resume ret => cases hwaits
      | absent => cases hwaits
    · change (w.kernel.mem.proc p).ticksUsed ≤ 1
      omega
  · intro w a w' hI hstep
    exact hI.step hstep.1 hstep.2

/-- In the runs in which the alarm of `p` does not fire, `p` leaves level `q` at its
`max_ticks[q]`-th timer interrupt in user mode if `q` is 0; from any other level it is never moved
down, so the slice is not kept once it has taken that many. -/
theorem slice_kept_iff (hw : ((sys p q).restrict (NoAlarm p q)).Reachable w) :
    w.Kept q ↔ q = 0 ∨ w.done < maxTicks q :=
  (inv_of_reachable hw).kept_iff

/-! ## Runs -/

instance (s : State Unit) : (o : Option Slot) → Decidable (Spares p s o)
  | none => isTrue trivial
  | some _ => inferInstanceAs (Decidable ((_ → _ ∧ _) ∧ (_ → _)))

instance (s : State Unit) : (e : Sched.Event Unit) → Decidable (Awake p s e)
  | .call _ .tick | .call _ (.sleep _) => inferInstanceAs (Decidable (_ ≠ _))
  | .call _ .yield | .call _ (.lock _) | .call _ .unlock | .call _ (.wakeup _) | .call _ (.kill _)
  | .call _ .fork | .call _ (.exit _) | .call _ .wait | .call _ .waitx | .call _ .setkilled
  | .call _ (.settickets _) | .call _ (.setPriority _ _) => isTrue trivial
  | .go _ _ => inferInstanceAs (Decidable (Spares p s _))
  | .sched _ _ => inferInstanceAs (Decidable (_ → ¬ _))
  | .intrWakeup _ _ _ | .intrTicks _ | .intrTime _ _ | .setIntr _ _ => isTrue trivial

instance (w : Slice) : (a : Event) → Decidable (NoAlarm p q w a)
  | .trap => decidable_of_iff ((∀ i < q, w.kernel.mem.queue.size i = 0) ∧ ¬ w.Fires)
      (and_congr_right' ⟨fun h _ => h, fun h => h rfl⟩)
  | .kernel e => decidable_of_iff (Awake p w.kernel e)
      ⟨fun h => ⟨h, nofun⟩, fun h => h.1⟩
  | .branch | .sigalarm _ | .sigreturn => isTrue ⟨trivial, nofun⟩

def kernelRun (es : List (Sched.Event Unit)) : Option (State Unit) :=
  TransSys.exec (fun s e => (Sched.step .mlfq s e).result) (boot .mlfq Unit) es

def watch (k : State Unit) : Slice := ⟨k, .user, -1, -1, 0, 0, none⟩

def noAlarmRun (q : ℕ) (w : Slice) (as : List Event) : Option Slice :=
  TransSys.exec (fun w a => if NoAlarm initproc q w a then (step initproc q w a).result else none)
    w as

def rounds : List (Sched.Event Unit) := List.replicate (2 * (NPROC + 1)) (.sched () 0)

def switch (q : ℕ) : List (Sched.Event Unit) :=
  List.replicate (q + 4) (.sched () 0) ++ [.go () true]

/-- A timer interrupt in user mode, at level `q`, up to the end of its MLFQ part. -/
def interrupt (q : ℕ) : List Event :=
  .trap :: ((.go () true :: .sched () 0 :: rounds ++ switch q).map .kernel ++
    .branch :: List.replicate (q + 1) (.kernel (.go () true)))

theorem reachable_of_noAlarmRun {es : List (Sched.Event Unit)} {as : List Event}
    (hk : kernelRun es = some k)
    (h0 : (k.mem.proc initproc).inQueue = true ∧ (k.mem.proc initproc).queuePosition = q ∧
      (k.mem.proc initproc).ticksUsed = 0) (hw : noAlarmRun q (watch k) as = some w) :
    ((sys initproc q).restrict (NoAlarm initproc q)).Reachable w := by
  have hreach : (Sched.sys .mlfq Unit).Reachable k :=
    (TransSys.Reachable.init rfl).run (.of_exec (fun _ _ _ => Outcome.result_eq_some.mp) hk)
  refine .of_exec (fun _ _ _ => Outcome.result_eq_some.mp) ?_ hw
  exact ⟨hreach, h0.1, h0.2.1, h0.2.2, rfl, rfl, rfl, rfl⟩

def firstQueued : List (Sched.Event Unit) := List.replicate (NPROC + 2) (.sched () 0)

def firstSlice : List Event :=
  (List.replicate NPROC (Sched.Event.sched () 0) ++ switch 0).map .kernel ++ interrupt 0 ++
    [.kernel (.go () true)]

theorem slice_kept_iff_firstQueued : ∃ w,
    ((sys initproc 0).restrict (NoAlarm initproc 0)).Reachable w ∧ w.left = some (1, 1) ∧
    (w.Kept 0 ↔ 0 = 0 ∨ w.done < maxTicks 0) := by
  have hrun : (kernelRun firstQueued).bind (fun k => (noAlarmRun 0 (watch k) firstSlice).map
      fun w => ((k.mem.proc initproc).inQueue, (k.mem.proc initproc).queuePosition,
        (k.mem.proc initproc).ticksUsed, w.left)) = some (true, 0, 0, some (1, 1)) := by
    decide +kernel
  obtain ⟨k, hk, h⟩ := Option.bind_eq_some_iff.mp hrun
  obtain ⟨w, hw, h⟩ := Option.map_eq_some_iff.mp h
  simp only [Prod.mk.injEq] at h
  have hreach := reachable_of_noAlarmRun hk ⟨h.1, h.2.1, h.2.2.1⟩ hw
  exact ⟨w, hreach, h.2.2.2, slice_kept_iff hreach⟩

def firstDemoted : List (Sched.Event Unit) :=
  rounds ++ switch 0 ++ [.call () .tick, .go () true, .go () true]

def twoInterrupts : List Event :=
  (.go () true :: .go () true :: .sched () 0 :: rounds ++ switch 1).map .kernel ++
    interrupt 1 ++ interrupt 1

/-- At level 1 the first process returns from two interrupts and is still there. -/
theorem level_one_not_left : ∃ w,
    ((sys initproc 1).restrict (NoAlarm initproc 1)).Reachable w ∧ ¬ w.Kept 1 := by
  have hrun : (kernelRun firstDemoted).bind (fun k => (noAlarmRun 1 (watch k) twoInterrupts).map
      fun w => ((k.mem.proc initproc).inQueue, (k.mem.proc initproc).queuePosition,
        (k.mem.proc initproc).ticksUsed, w.done, w.left.isSome)) = some (true, 1, 0, 2, false) := by
    decide +kernel
  obtain ⟨k, hk, h⟩ := Option.bind_eq_some_iff.mp hrun
  obtain ⟨w, hw, h⟩ := Option.map_eq_some_iff.mp h
  simp only [Prod.mk.injEq] at h
  refine ⟨w, reachable_of_noAlarmRun hk ⟨h.1, h.2.1, h.2.2.1⟩ hw, ?_⟩
  rintro ⟨-, hleft⟩
  have hnone : w.left = none :=
    Option.isNone_iff_eq_none.mp (Option.isSome_eq_false_iff.mp h.2.2.2.2)
  exact hleft (by rw [h.2.2.2.1]; decide) hnone

end Slice
end Xv6.Sched
