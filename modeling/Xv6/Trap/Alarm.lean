import Xv6.Trap.Ends

/-! # Alarms

A process that runs in user mode and traps, with every outcome of its system calls and everything
the other threads may do. From the delivery of an alarm on, `alarm_ticks` is -1 and `alarm_trap` has
the interrupted registers; only `sigreturn`, and a `sigalarm` inside the handler, end that.
-/

namespace Xv6.Trap
set_option autoImplicit false
open Sched (Slot Build int)
open Vm (Ram)

/-! ## A process and its traps -/

/-- A process in user mode: the registers of the hart, and the state its next trap finds. -/
structure Task where
  regs : Trapframe
  state : State

def Task.uservec (t : Task) : State := { t.state with own.trapframe := t.regs }

inductive Event (p : Slot) where
  | user (regs : Trapframe)
  | trap (c : Cause) (env : Env p) (r : Reply)

def Task.step (b : Build) (R : Ram) {p : Slot} (t : Task) : Event p → Option Task
  | .user regs => some { t with regs := regs }
  | .trap c env r =>
    match usertrap b R env (syscall r) c t.uservec with
    | .user s => some ⟨s.own.trapframe, s⟩
    | _ => none

def taskSys (b : Build) (R : Ram) (p : Slot) : TransSys Task (Event p) where
  init := fun _ => True
  step := fun t e t' => t.step b R e = some t'

def Trapframe.next (t : Trapframe) : Trapframe := { t with epc := t.epc + 4 }

inductive Change {p : Slot} (t : Task) : Event p → Own → Prop
  | user (regs : Trapframe) : Change t (.user regs) t.state.own
  | deliver (env : Env p) (r : Reply) (hdue : t.state.own.AlarmDue) :
      Change t (.trap .timer env r) t.uservec.own.bump.deliver
  | timer (env : Env p) (r : Reply) (hdue : ¬ t.state.own.AlarmDue) :
      Change t (.trap .timer env r) t.uservec.own.bump
  | call (env : Env p) (r : Reply) :
      Change t (.trap .syscall env r) (r.finish { t.state.own with trapframe := t.regs.next })
  | other (c : Cause) (env : Env p) (r : Reply) (hc : c ≠ .timer) (hs : c ≠ .syscall) :
      Change t (.trap c env r) t.uservec.own

section
variable {b : Build} {R : Ram} {p : Slot} {env : Env p} {r : Reply}

theorem bad_own {timer : Bool} {s s' : State} (h : bad b env timer s = .user s') :
    s'.own = s.own := by
  have hkept : Kept env fun t => t.own = s.own := ⟨fun _ _ h => h, fun _ h => h⟩
  have hown := hkept.bad b timer rfl
  rw [h] at hown
  exact hown

theorem Own.bump_eq (o : Own) : o.bump = { o with
    alarmTicks := if 1 ≤ o.maxAlarmTicks ∧ -1 < o.alarmTicks then int (o.alarmTicks + 1)
      else o.alarmTicks } := by
  rw [Own.bump]
  split_ifs <;> rfl

theorem uservec_due (t : Task) : t.uservec.own.AlarmDue ↔ t.state.own.AlarmDue := by
  rw [Own.AlarmDue, Own.AlarmDue, Own.bump_eq, Own.bump_eq]
  exact Iff.rfl

theorem storeTrap_own {v : ℕ} {s s' : State} (h : storeTrap b R env v s = .user s') :
    s'.own = s.own := by
  rw [storeTrap] at h
  split at h
  · exact (bad_own h).trans rfl
  · exact (bad_own h).trans rfl
  · cases h
  · cases h

theorem syscall_user {s s' : State} (h : (syscall r s).finish (bad b env false) = .user s') :
    s.own.trapframe.num ≠ .exit ∧ s'.own = r.finish s.own := by
  rw [syscall] at h
  split at h
  · cases h
  · next hnum => exact ⟨hnum, bad_own h⟩

variable {t t' : Task} {e : Event p} {o : Own}

theorem trap_change {c : Cause} {s : State}
    (h : usertrap b R env (syscall r) c t.uservec = .user s) : Change t (.trap c env r) s.own := by
  cases c with
  | syscall =>
    rw [usertrap] at h
    split at h
    · cases h
    · rw [(syscall_user h).2]
      exact .call env r
  | timer =>
    rw [usertrap, timerTrap] at h
    split at h
    · next hdue =>
      cases h
      exact .deliver env r ((uservec_due t).mp hdue)
    · next hdue =>
      rw [bad_own h]
      exact .timer env r (mt (uservec_due t).mpr hdue)
  | device | other =>
    rw [bad_own h]
    exact .other _ env r (by simp) (by simp)
  | store v =>
    rw [storeTrap_own h]
    exact .other _ env r (by simp) (by simp)

theorem step_trap {c : Cause} (h : t.step b R (.trap c env r) = some t') :
    ∃ s, usertrap b R env (syscall r) c t.uservec = .user s ∧ t' = ⟨s.own.trapframe, s⟩ := by
  rw [Task.step] at h
  split at h
  · next s hs => exact ⟨s, hs, (Option.some.inj h).symm⟩
  · cases h

theorem step_change (h : t.step b R e = some t') : Change t e t'.state.own := by
  cases e with
  | user regs =>
    cases h
    exact .user regs
  | trap c env r =>
    obtain ⟨s, hs, rfl⟩ := step_trap h
    exact trap_change hs

/-! ## Inside a handler -/

/-- An alarm has been delivered to a program with the registers `T`, and `sigreturn` can go back. -/
def Saved (T : Trapframe) (o : Own) : Prop := o.alarmTicks = -1 ∧ o.alarmTrap = T

variable {T : Trapframe}

theorem saved_deliver (t : Task) : Saved t.regs t.uservec.own.bump.deliver := by
  rw [Own.bump_eq]
  exact ⟨rfl, rfl⟩

theorem Saved.not_due (h : Saved T o) : ¬ o.AlarmDue := by
  rintro ⟨hmax, hticks⟩
  rw [Own.bump_eq, if_neg (by simp [h.1]), h.1] at hticks
  omega

theorem Saved.bump (h : Saved T o) : Saved T o.bump := by
  rw [Own.bump_eq, if_neg (by simp [h.1])]
  exact h

theorem Saved.finish (h : Saved T o) (r : Reply) (hreturn : o.trapframe.num ≠ .sigreturn)
    (halarm : o.trapframe.num = .sigalarm → (o.trapframe.argint .a0).toInt < 0) :
    Saved T (r.finish o) := by
  rw [Reply.finish, Reply.run]
  cases hnum : o.trapframe.num with
  | exit => exact h
  | exec =>
    cases r.image with
    | none => exact h
    | some image => exact h
  | sigalarm =>
    have hneg : ¬ 0 ≤ (o.trapframe.argint .a0).toInt := by
      have := halarm hnum
      omega
    simp only [sysSigalarm, if_neg hneg]
    exact h
  | sigreturn => exact absurd hnum hreturn
  | plain => exact h
  | unknown => exact h

theorem Saved.sysSigreturn (h : Saved T o) :
    sysSigreturn o = (0, { o with alarmTicks := 0, trapframe := T }) := by
  rw [Trap.sysSigreturn, if_pos h.1, h.2]

/-- No `sigreturn`, and no `sigalarm` that succeeds. -/
def KeepsAlarm (t : Task) : Event p → Prop
  | .trap .syscall _ _ => t.regs.num ≠ .sigreturn ∧
      (t.regs.num = .sigalarm → (t.regs.argint .a0).toInt < 0)
  | _ => True

theorem Saved.change (h : Saved T t.state.own) (he : KeepsAlarm t e) (hc : Change t e o) :
    Saved T o := by
  have hvec : Saved T t.uservec.own := h
  cases hc with
  | user regs => exact h
  | deliver env r hdue => exact absurd hdue h.not_due
  | timer env r hdue => exact hvec.bump
  | call env r =>
    exact Saved.finish (o := { t.state.own with trapframe := t.regs.next }) h r he.1 he.2
  | other c env r hc hs => exact h

/-! ## Going back to the interrupted program -/

theorem Trapframe.set_eq_self_iff {t : Trapframe} {x : Reg} {v : BitVec 64} :
    t.set x v = t ↔ t.reg x = v := by
  constructor
  · intro h
    have hreg : Function.update t.reg x v x = t.reg x := congrArg (fun t => t.reg x) h
    rw [← hreg, Function.update_self]
  · rintro rfl
    rw [Trapframe.set, Function.update_eq_self]

theorem sigreturn_step (h : Saved T t.state.own) (hnum : t.regs.num = .sigreturn) :
    (t.step b R (.trap .syscall env r)).map Task.regs =
      if (t.state.mem.proc p).killed ∨ (r.mem.proc p).killed then none else some (T.set .a0 0) := by
  set o : Own := { t.state.own with trapframe := t.regs.next } with ho
  have hrun : r.run o = (0, { o with alarmTicks := 0, trapframe := T }) := by
    have hnext : o.trapframe.num = .sigreturn := hnum
    rw [Reply.run, hnext]
    exact Saved.sysSigreturn h
  have hcall (s : State) (hs : s.own = o) :
      syscall r s = .ok ⟨r.finish o, r.mem, r.kmem, r.pt, s.yields⟩ := by
    have hexit : s.own.trapframe.num ≠ .exit := by
      rw [hs]
      change t.regs.num ≠ .exit
      rw [hnum]
      simp
    rw [syscall, if_neg hexit, hs]
  rw [Task.step, usertrap]
  dsimp only
  rw [hcall _ rfl]
  cases hk : (t.state.mem.proc p).killed with
  | true => simp [Task.uservec, hk]
  | false =>
    have hk0 : ¬ (t.uservec.mem.proc p).killed = true := by simpa [Task.uservec] using hk
    rw [if_neg hk0]
    simp only [Flow.finish, bad]
    cases hk' : (r.mem.proc p).killed with
    | true => simp
    | false => simp [Reply.finish, hrun]

theorem saved_of_deliver (hdue : t.state.own.AlarmDue)
    (hstep : t.step b R (.trap .timer env r) = some t') : Saved t.regs t'.state.own := by
  have hchange := step_change hstep
  generalize t'.state.own = o at hchange ⊢
  cases hchange with
  | deliver env r hdue => exact saved_deliver t
  | timer env r hnot => exact absurd hdue hnot
  | other c env r hc hs => exact absurd rfl hc

/-- What a handler does: it runs, it is interrupted, and it calls anything but the alarm calls,
`exec` and `exit`. -/
def HandlerEvent (t : Task) : Event p → Prop
  | .trap .syscall _ _ => t.regs.num ≠ .sigalarm ∧ t.regs.num ≠ .sigreturn ∧ t.regs.num ≠ .exec ∧
      t.regs.num ≠ .exit
  | _ => True

theorem HandlerEvent.keepsAlarm (h : HandlerEvent t e) : KeepsAlarm t e := by
  cases e with
  | user regs => trivial
  | trap c env r =>
    cases c with
    | syscall => exact ⟨h.2.1, fun hnum => absurd hnum h.1⟩
    | _ => trivial

theorem saved_of_run {es : List (Event p)} (h : Saved T t.state.own)
    (hrun : ((taskSys b R p).restrict HandlerEvent).Run t es t') : Saved T t'.state.own := by
  induction hrun with
  | nil => exact h
  | cons hstep _ ih => exact ih (h.change hstep.1.keepsAlarm (step_change hstep.2))

end

/-- From the delivery of an alarm at `t`, through any run of the handler to `t₁`: the `sigreturn`
that follows goes back to the interrupted program exactly if `a0` was 0 there and nobody has killed
the process. -/
theorem sigreturn_restores_iff (b : Build) (R : Ram) {p : Slot} {t t₀ t₁ : Task} (env : Env p)
    (r : Reply) (es : List (Event p)) (env' : Env p) (r' : Reply) (hdue : t.state.own.AlarmDue)
    (hdeliver : t.step b R (.trap .timer env r) = some t₀)
    (hrun : ((taskSys b R p).restrict HandlerEvent).Run t₀ es t₁)
    (hnum : t₁.regs.num = .sigreturn) :
    (t₁.step b R (.trap .syscall env' r')).map Task.regs = some t.regs ↔
      t.regs.reg .a0 = 0 ∧ ¬ (t₁.state.mem.proc p).killed ∧ ¬ (r'.mem.proc p).killed := by
  rw [sigreturn_step (saved_of_run (saved_of_deliver hdue hdeliver) hrun) hnum]
  split
  · next hk =>
    refine ⟨fun h => absurd h (by simp), ?_⟩
    rintro ⟨-, hk1, hk2⟩
    exact absurd hk (not_or.mpr ⟨hk1, hk2⟩)
  · next hk =>
    rw [Option.some_inj, Trapframe.set_eq_self_iff]
    exact (and_iff_left (not_or.mp hk)).symm

def quietReply : Reply where
  ret := 0
  image := none
  mem := (runningState 1 0 false).mem
  kmem := (runningState 1 0 false).kmem
  pt := (runningState 1 0 false).pt

def regsWith (x n : BitVec 64) : Trapframe :=
  ⟨100, Function.update (Function.update (fun _ => 0) .a0 x) .a7 n⟩

theorem sigreturn_restores_iff_idle : ∃ t₀ t₁ : Task,
    Task.step .rr ⟨1, 2, 0, by decide⟩ ⟨regsWith 0 0, runningState 1 0 false⟩
      (.trap .timer (Env.idle Sched.initproc) quietReply) = some t₀ ∧
    t₀.step .rr ⟨1, 2, 0, by decide⟩ (.user (p := Sched.initproc) (regsWith 7 24)) = some t₁ ∧
    (t₁.step .rr ⟨1, 2, 0, by decide⟩
      (.trap .syscall (Env.idle Sched.initproc) quietReply)).map Task.regs =
        some (regsWith 0 0) := by
  refine ⟨_, _, rfl, rfl, ?_⟩
  refine (sigreturn_restores_iff (t := ⟨regsWith 0 0, runningState 1 0 false⟩) .rr
    ⟨1, 2, 0, by decide⟩ (Env.idle Sched.initproc) quietReply [.user (regsWith 7 24)] _ _
    (by decide) rfl (.cons ⟨trivial, rfl⟩ (.nil _)) (by decide)).mpr ?_
  exact ⟨rfl, by simp [Task.uservec, runningState], by simp [quietReply, runningState]⟩

/-- The interrupted program had 5 in `a0`; it goes on with 0 there. -/
theorem sigreturn_clobbers_a0 : ∃ t₀ t₁ t₂ : Task,
    Task.step .rr ⟨1, 2, 0, by decide⟩ ⟨regsWith 5 0, runningState 1 0 false⟩
      (.trap .timer (Env.idle Sched.initproc) quietReply) = some t₀ ∧
    t₀.step .rr ⟨1, 2, 0, by decide⟩ (.user (p := Sched.initproc) (regsWith 7 24)) = some t₁ ∧
    t₁.step .rr ⟨1, 2, 0, by decide⟩
      (.trap .syscall (Env.idle Sched.initproc) quietReply) = some t₂ ∧
    t₂.regs.reg .a0 = 0 ∧ t₂.regs.reg .a0 ≠ (regsWith 5 0).reg .a0 :=
  ⟨_, _, _, rfl, rfl, rfl, by decide, by decide⟩

/-! ## Handlers are not entered again -/

/-- A process, with the registers of the program that the handler it is in has interrupted. -/
structure Watched where
  task : Task
  active : Option Trapframe

/-- An alarm that is delivered makes the handler active, the next `sigreturn` ends it. -/
def Watched.next {p : Slot} (w : Watched) : Event p → Option Trapframe
  | .trap .timer _ _ => if w.task.state.own.AlarmDue then some w.task.regs else w.active
  | .trap .syscall _ _ => if w.task.regs.num = .sigreturn then none else w.active
  | _ => w.active

def watchedSys (b : Build) (R : Ram) (p : Slot) : TransSys Watched (Event p) where
  init := fun w => w.active = none
  step := fun w e w' => w.task.step b R e = some w'.task ∧ w'.active = w.next e

def NoRearm {p : Slot} (w : Watched) : Event p → Prop
  | .trap .syscall _ _ => w.active ≠ none → w.task.regs.num = .sigalarm →
      (w.task.regs.argint .a0).toInt < 0
  | _ => True

/-- Inside a handler for a program with the registers `T`: no alarm can be delivered, `alarm_trap`
has `T`, and `sigreturn` returns 0 and puts `alarm_trap` back. -/
def CanReturn (T : Trapframe) (o : Own) : Prop :=
  ¬ o.AlarmDue ∧ o.alarmTrap = T ∧
    ∀ t, sysSigreturn { o with trapframe := t } = (0, { o with alarmTicks := 0, trapframe := T })

section
variable {b : Build} {R : Ram} {p : Slot} {T : Trapframe}

variable {o : Own}

theorem Saved.canReturn (h : Saved T o) : CanReturn T o := by
  refine ⟨h.not_due, h.2, ?_⟩
  intro t
  exact Saved.sysSigreturn h

theorem saved_of_active {w : Watched} (hw : ((watchedSys b R p).restrict NoRearm).Reachable w) :
    ∀ T, w.active = some T → Saved T w.task.state.own := by
  refine hw.invariant (I := fun w => ∀ T, w.active = some T → Saved T w.task.state.own) ?_ ?_
  · intro w hinit T hT
    rw [show w.active = none from hinit] at hT
    cases hT
  · rintro w e w' ih ⟨hrearm, hstep, hactive⟩ T hT
    have hchange := step_change hstep
    have hkeep (hold : w.active = some T) (he : KeepsAlarm w.task e) :
        Saved T w'.task.state.own := (ih T hold).change he hchange
    rw [hactive] at hT
    cases e with
    | user regs => exact hkeep hT trivial
    | trap c env r =>
      cases c with
      | timer =>
        by_cases hdue : w.task.state.own.AlarmDue
        · -- the delivery: the interrupted registers are the ones that are saved
          rw [Watched.next, if_pos hdue, Option.some_inj] at hT
          subst hT
          exact saved_of_deliver hdue hstep
        · rw [Watched.next, if_neg hdue] at hT
          exact hkeep hT trivial
      | syscall =>
        by_cases hnum : w.task.regs.num = .sigreturn
        · rw [Watched.next, if_pos hnum] at hT
          cases hT
        · rw [Watched.next, if_neg hnum] at hT
          exact hkeep hT ⟨hnum, hrearm (by simp [hT])⟩
      | device | store v | other => exact hkeep hT trivial

theorem finish_sigalarm (r : Reply) (hnum : o.trapframe.num = .sigalarm)
    (hticks : 0 ≤ (o.trapframe.argint .a0).toInt) : (r.finish o).alarmTicks = 0 := by
  simp only [Reply.finish, Reply.run, hnum, sysSigalarm, if_pos hticks]

theorem not_canReturn (h : o.alarmTicks = 0) : ¬ CanReturn T o := by
  rintro ⟨-, -, hreturn⟩
  have hfail := hreturn T
  rw [sysSigreturn, if_neg (by simp [h])] at hfail
  exact absurd (Prod.mk.inj hfail).1 (by decide)

theorem not_canReturn_of_rearm {w w' : Watched} {e : Event p} (hrearm : ¬ NoRearm w e)
    (hstep : (watchedSys b R p).step w e w') :
    w'.active = w.active ∧ ∀ T, ¬ CanReturn T w'.task.state.own := by
  obtain ⟨hstep, hactive⟩ := hstep
  cases e with
  | user regs => exact absurd trivial hrearm
  | trap c env r =>
    cases c with
    | syscall =>
      simp only [NoRearm, Classical.not_imp, not_lt] at hrearm
      obtain ⟨-, hnum, hticks⟩ := hrearm
      have hchange := step_change hstep
      generalize w'.task.state.own = o at hchange ⊢
      constructor
      · rw [hactive, Watched.next, if_neg (by simp [hnum])]
      · cases hchange with
        | call env r =>
          intro T
          exact not_canReturn (finish_sigalarm r hnum hticks)
        | other c env r hc hs => exact absurd rfl hs
    | timer | device | store v | other => exact absurd trivial hrearm

end

/-- In every run in which no `sigalarm` succeeds inside a handler, an active handler is not entered
again and can return; the first `sigalarm` that does succeed there makes its `sigreturn` fail. -/
theorem handler_can_return_iff (b : Build) (R : Ram) (p : Slot) :
    (∀ w T, ((watchedSys b R p).restrict NoRearm).Reachable w → w.active = some T →
      CanReturn T w.task.state.own) ∧
    ∀ w w' (e : Event p), ¬ NoRearm w e → (watchedSys b R p).step w e w' →
      w'.active = w.active ∧ ∀ T, ¬ CanReturn T w'.task.state.own := by
  constructor
  · intro w T hw hT
    exact (saved_of_active hw T hT).canReturn
  · intro w w' e hrearm hstep
    exact not_canReturn_of_rearm hrearm hstep

theorem handler_can_return_iff_delivered : ∃ w : Watched,
    ((watchedSys .rr ⟨1, 2, 0, by decide⟩ Sched.initproc).restrict NoRearm).Reachable w ∧
    w.active = some (regsWith 5 0) ∧ CanReturn (regsWith 5 0) w.task.state.own := by
  have hreach : ∃ w : Watched,
      ((watchedSys .rr ⟨1, 2, 0, by decide⟩ Sched.initproc).restrict NoRearm).Reachable w ∧
      w.active = some (regsWith 5 0) := by
    have hinit : (watchedSys .rr ⟨1, 2, 0, by decide⟩ Sched.initproc).init
        ⟨⟨regsWith 5 0, runningState 1 0 false⟩, none⟩ := rfl
    exact ⟨⟨_, _⟩, .step (a := .trap .timer (Env.idle Sched.initproc) quietReply) (.init hinit)
      ⟨trivial, rfl, rfl⟩, rfl⟩
  obtain ⟨w, hw, hactive⟩ := hreach
  exact ⟨w, hw, hactive, (handler_can_return_iff _ _ _).1 w _ hw hactive⟩

/-- An alarm is delivered; the handler calls `sigalarm(1, ...)`; the next timer interrupt enters it
again and saves the registers of the handler over those of the program. -/
theorem handler_entered_again : ∃ w₀ w₁ w₂ w₃ : Watched, w₀.active = none ∧
    (watchedSys .rr ⟨1, 2, 0, by decide⟩ Sched.initproc).step w₀
      (.trap .timer (Env.idle Sched.initproc) quietReply) w₁ ∧
    (watchedSys .rr ⟨1, 2, 0, by decide⟩ Sched.initproc).step w₁ (.user (regsWith 1 23)) w₂ ∧
    (watchedSys .rr ⟨1, 2, 0, by decide⟩ Sched.initproc).step w₂
      (.trap .syscall (Env.idle Sched.initproc) quietReply) w₃ ∧
    w₃.active = some (regsWith 5 0) ∧ w₃.task.state.own.AlarmDue ∧
    (sysSigreturn w₃.task.state.own).1 = -1 := by
  refine ⟨⟨⟨regsWith 5 0, runningState 1 0 false⟩, none⟩, ⟨_, _⟩, ⟨_, _⟩, ⟨_, _⟩, rfl, ⟨rfl, rfl⟩,
    ⟨rfl, rfl⟩, ⟨rfl, rfl⟩, rfl, by decide, by decide⟩

end Xv6.Trap
