import Xv6.Sched.Exclusive
import Xv6.Sched.Writes
import Xv6.Trap.Usertrap
import Xv6.Vm.Owners

/-! # How a trap ends

Which traps end in `exit` once the process is killed, and how often `usertrap` gives up the
processor on a timer interrupt. The assumption about the other threads is discharged for the
scheduler model: as long as no hart runs the thread of `p`, every step writes its table entry in
one of the ways of `ByOthers`.
-/

namespace Xv6.Trap
set_option autoImplicit false
open Sched (Slot Mem Build NQUEUE maxTicks pushQueue)
open Vm (Ram Kmem PageTable storeFault)

/-! ## The other threads of the scheduler model -/

section
variable {H : Type} [DecidableEq H] {b : Build} {s s' : Sched.State H} {p : Slot}

/-- `p` is neither asleep nor between `fork` and `exit`; a process that calls `yield` stays so until
it is switched to again. -/
def Awake (x : Sched.Proc) : Prop := x.state = .runnable ∨ x.state = .running

theorem ByOthers.awake {x y : Sched.Proc} (h : ByOthers x y) (hx : Awake x) : Awake y := by
  cases h with
  | dispatch ct wait => exact .inr rfl
  | _ => exact hx

theorem awake_of_byOthers {x y : Sched.Proc} (h : Relation.ReflTransGen ByOthers x y)
    (hx : Awake x) : Awake y := by
  induction h with
  | refl => exact hx
  | tail _ hstep ih => exact hstep.awake ih

theorem byOthers_of_step {e : Sched.Event H} (hI : Sched.Inv b s) (hoff : ∀ h, s.run h ≠ some p)
    (hst : Awake (s.mem.proc p)) (hs : Sched.step b s e = .ok s') :
    Relation.ReflTransGen ByOthers (s.mem.proc p) (s'.mem.proc p) := by
  have hwrite := Sched.step_writes hs p
  revert hwrite
  generalize s'.mem.proc p = y
  intro hwrite
  cases hwrite with
  | same => exact .refl
  | queue wait pos used inq => exact .single (.queue wait pos used inq)
  | niceness n => exact .single (.niceness n)
  | dispatch h l ct wait hl hrun => exact .single (.dispatch ct wait)
  | leave h pc st chan status hr ht hne | resumed h hr | setkilled h hr ht =>
    exact absurd hr (hoff h)
  | wake hsleep => rcases hst with h | h <;> simp [h] at hsleep
  | kill h ok q pid he hr ht hp =>
    have hawake : (s.mem.proc p).state ≠ .sleeping := by rcases hst with h | h <;> simp [h]
    rw [Sched.killOne, if_pos hp, Mem.set_proc_self, if_neg hawake]
    exact .single .kill
  | alloc h q hr ht hq | allocFail q hq => rcases hst with h | h <;> simp [h] at hq
  | parent o => exact .single (.parent o)
  | ready h q hr ht =>
    have hused := (hI.child q p (by rw [ht]; rfl)).1
    rcases hst with h | h <;> simp [h] at hused
  | reap hz => rcases hst with h | h <;> simp [h] at hz
  | time =>
    rw [Sched.updateTime, Mem.set_proc_self]
    exact .single (.time _ _ _)
  | tickets n hn => exact .single (.tickets _)
  | priority n => exact .single (.priority n)

theorem byOthers_of_run {es : List (Sched.Event H)} (hI : Sched.Inv b s)
    (hst : Awake (s.mem.proc p))
    (hrun : ((Sched.sys b H).restrict fun s e => Sched.Fresh s e ∧ ∀ h, s.run h ≠ some p).Run
      s es s') :
    Relation.ReflTransGen ByOthers (s.mem.proc p) (s'.mem.proc p) := by
  induction hrun with
  | nil => exact .refl
  | @cons s t u e es hstep _ ih =>
    obtain ⟨⟨hfresh, hoff⟩, hs⟩ := hstep
    have hfirst := byOthers_of_step hI hoff hst hs
    have hI' : Sched.Inv b t := (Sched.step_ensures hI e hfresh).of_ok hs
    exact hfirst.trans (ih hI' (awake_of_byOthers hfirst hst))

end

/-! ## A process for the examples -/

def Env.idle (p : Slot) : Env p where
  after := fun _ m => m.setState p .running
  byOthers := by
    intro _ m
    rw [Mem.setState, Mem.set_proc_self]
    exact .single (.dispatch _ _)
  running := by
    intro _ m
    exact Mem.setState_self m p .running

def Env.killing (p : Slot) : Env p where
  after := fun _ m => (m.set p fun x => { x with killed := true }).setState p .running
  byOthers := by
    intro _ m
    rw [Mem.setState, Mem.set_proc_self, Mem.set_proc_self]
    exact Relation.ReflTransGen.trans (.single .kill) (.single (.dispatch _ _))
  running := by
    intro _ m
    exact Mem.setState_self _ p .running

/-- The first process runs with all its registers 0; `own` is its alarm and `killed` its mark. -/
def runningState (maxAlarm alarm : ℤ) (killed : Bool) : State where
  own := { trapframe := ⟨0, fun _ => 0⟩, maxAlarmTicks := maxAlarm, alarmTicks := alarm
           handler := 64, alarmTrap := ⟨0, fun _ => 0⟩ }
  mem := Sched.bootMem.set Sched.initproc fun x => { x with state := .running, killed := killed }
  kmem :=
    { refCount := fun _ => 0, freelist := [], data := fun _ => ByteBlock.fill _ 0, oom := false }
  pt := { root := 0, level1 := fun _ => none, level0 := fun _ => none, pte := fun _ => .zero }
  yields := 0

/-! ## A killed process -/

section
variable {b : Build} {R : Ram} {p : Slot} {env : Env p} {s : State}

theorem killed_of_byOthers {x y : Sched.Proc} (h : Relation.ReflTransGen ByOthers x y)
    (hx : x.killed = true) : y.killed = true := by
  induction h with
  | refl => exact hx
  | tail _ hstep ih =>
    cases hstep with
    | kill => rfl
    | _ => exact ih

theorem yield_killed (env : Env p) (hk : (s.mem.proc p).killed = true) :
    ((yield env s).mem.proc p).killed = true := by
  refine killed_of_byOthers (env.byOthers _ _) ?_
  rw [Mem.setState, Mem.set_proc_self]
  exact hk

theorem setkilled_killed (s : State) : ((setkilled p s).mem.proc p).killed = true := by
  simp [setkilled, State.setProc]

theorem bad_of_killed (b : Build) (env : Env p) (timer : Bool)
    (hk : (s.mem.proc p).killed = true) : bad b env timer s = .exit (-1) s := if_pos hk

/-- The kernel does not stop on a store fault at page `v`: the entry exists, and if the page is
marked copy-on-write there is a free page for the copy and the old page can be released. -/
def StoreHandled (R : Ram) (v : ℕ) (k : Kmem) (pt : PageTable) : Prop :=
  v < Vm.MAXVPN ∧ pt.reaches v = true ∧
    ((pt.pte v).flags.cow = true → k.freelist ≠ [] ∧ R.Allocatable (pt.pte v).ppn)

variable {k : Kmem}

theorem kfree_ok_iff {pg : Vm.Ppn} : (∃ k', Vm.Kmem.kfree R pg k = .ok k') ↔ R.Allocatable pg := by
  rw [Vm.Kmem.kfree]
  split
  · next h => simpa using h
  · next h =>
    refine ⟨fun _ => not_not.mp h, fun _ => ?_⟩
    dsimp only
    split
    · exact ⟨_, rfl⟩
    · exact ⟨_, rfl⟩

theorem cowCopy_ok_iff {v : ℕ} {pt : PageTable} (hv : v < Vm.MAXVPN) (hr : pt.reaches v = true)
    (hcow : (pt.pte v).flags.cow = true) : (∃ r, Vm.cowCopy R v (pt.pte v).ppn k pt = .ok r) ↔
      k.freelist ≠ [] ∧ R.Allocatable (pt.pte v).ppn := by
  rw [Vm.cowCopy, Vm.Kmem.kalloc]
  cases hfree : k.freelist with
  | nil => simp
  | cons mem rest =>
    -- the walk in `mappages` finds the entry, and a marked entry may be mapped again
    have hmap (k' : Kmem) : Vm.mappages 1 v mem Vm.cowPerm k' pt =
        .ok (true, k', pt.setPte v ⟨mem, { Vm.cowPerm with v := true }⟩) := by
      rw [Vm.mappages, Vm.mapPage_found hr hv, if_neg (by simp [hcow])]
    dsimp only
    generalize Vm.Kmem.copyPage _ mem (pt.pte v).ppn = k1
    rw [hmap, and_iff_right (List.cons_ne_nil mem rest), ← kfree_ok_iff]
    change (∃ r, (Vm.Kmem.kfree R (pt.pte v).ppn k1 >>= fun k' => pure (true, k', _)) = .ok r) ↔ _
    constructor
    · rintro ⟨r, h⟩
      obtain ⟨k', hk', -⟩ := Outcome.bind_eq_ok h
      exact ⟨k', hk'⟩
    · rintro ⟨k', hk'⟩
      rw [hk']
      exact ⟨_, rfl⟩

theorem storeFault_ok_iff {v : ℕ} {pt : PageTable} :
    (∃ r, storeFault R v k pt = .ok r) ↔ StoreHandled R v k pt := by
  rw [storeFault, Vm.walk_find, StoreHandled]
  split
  · next hv =>
    refine ⟨fun ⟨r, h⟩ => (by cases h), fun h => absurd h.1 (by omega)⟩
  · next hv =>
    have hv : v < Vm.MAXVPN := by omega
    change (∃ r, (if !pt.reaches v then Outcome.fail Failure.fault
      else if !(pt.pte v).flags.cow then pure (false, k, pt)
      else Vm.cowCopy R v (pt.pte v).ppn k pt) = Outcome.ok r) ↔ _
    cases hr : pt.reaches v with
    | false => simp
    | true =>
      cases hcow : (pt.pte v).flags.cow with
      | false =>
        refine ⟨fun _ => ⟨hv, rfl, by simp⟩, fun _ => ⟨(false, k, pt), rfl⟩⟩
      | true => simpa [hv] using cowCopy_ok_iff hv hr hcow

theorem storeTrap_exits_iff (b : Build) (R : Ram) (env : Env p) (v : ℕ)
    (hk : (s.mem.proc p).killed = true) :
    (∃ t, storeTrap b R env v s = .exit (-1) t) ↔ StoreHandled R v s.kmem s.pt := by
  rw [← storeFault_ok_iff, storeTrap]
  rcases storeFault R v s.kmem s.pt with _ | e | ⟨ok, k, pt⟩
  · simp
  · simp
  · have hexit : ∃ t, bad b env false { s with kmem := k, pt := pt } = .exit (-1) t :=
      ⟨_, bad_of_killed b env false hk⟩
    have hexit' : ∃ t, bad b env false (setkilled p { s with kmem := k, pt := pt }) =
        .exit (-1) t := ⟨_, bad_of_killed b env false (setkilled_killed _)⟩
    cases ok with
    | true => exact ⟨fun _ => ⟨_, rfl⟩, fun _ => hexit⟩
    | false => exact ⟨fun _ => ⟨_, rfl⟩, fun _ => hexit'⟩

theorem timerTrap_exits_iff (b : Build) (env : Env p) (hk : (s.mem.proc p).killed = true) :
    (∃ t, timerTrap b env s = .exit (-1) t) ↔ ¬ s.own.AlarmDue := by
  rw [timerTrap]
  by_cases hdue : s.own.AlarmDue
  · simp [hdue]
  · have hyield : ((yield env { s with own := s.own.bump }).mem.proc p).killed = true :=
      yield_killed env hk
    simp only [if_neg hdue, bad_of_killed b env true hyield]
    exact ⟨fun _ => hdue, fun _ => ⟨_, rfl⟩⟩

/-- A killed process leaves `usertrap` through `exit(-1)` except when the timer interrupt delivers
an alarm, which returns to user mode before `killed` is looked at, or when the store-fault branch
stops the kernel. -/
theorem killed_exits_iff (b : Build) (R : Ram) {p : Slot} (env : Env p) (call : State → Flow)
    (c : Cause) (s : State) (hk : (s.mem.proc p).killed = true) :
    (∃ t, usertrap b R env call c s = .exit (-1) t) ↔
      (c = .timer → ¬ s.own.AlarmDue) ∧ ∀ v, c = .store v → StoreHandled R v s.kmem s.pt := by
  have hk0 : (({ s with yields := 0 } : State).mem.proc p).killed = true := hk
  cases c with
  | syscall => simp [usertrap, hk]
  | timer => simpa [usertrap] using timerTrap_exits_iff b env hk0
  | device => simp [usertrap, bad_of_killed b env false hk0]
  | store v => simpa [usertrap] using storeTrap_exits_iff b R env v hk0
  | other =>
    have hset := setkilled_killed (p := p) { s with yields := 0 }
    simp [usertrap, bad_of_killed b env false hset]

end

theorem killed_exits_iff_noAlarm :
    ((runningState (-1) (-1) true).mem.proc Sched.initproc).killed = true ∧
    ∃ t, usertrap .rr ⟨1, 2, 0, by decide⟩ (Env.idle Sched.initproc) .ok .timer
      (runningState (-1) (-1) true) = .exit (-1) t := by
  have hk : ((runningState (-1) (-1) true).mem.proc Sched.initproc).killed = true := by
    simp [runningState]
  refine ⟨hk, (killed_exits_iff _ _ _ _ _ _ hk).mpr ⟨fun _ => ?_, ?_⟩⟩
  · decide
  · intro v hv
    cases hv

/-- The alarm of a killed process is due: the timer interrupt returns to user mode at the handler.
-/
theorem killed_enters_handler : ((runningState 1 0 true).mem.proc Sched.initproc).killed = true ∧
    ∃ t, usertrap .rr ⟨1, 2, 0, by decide⟩ (Env.idle Sched.initproc) .ok .timer
        (runningState 1 0 true) = .user t ∧ t.own.trapframe.epc = 64 := by
  refine ⟨by simp [runningState], ?_⟩
  exact ⟨_, rfl, rfl⟩

/-! ## Giving up the processor -/

/-- The tick of this interrupt uses up `max_ticks` of the level of `p`. -/
def TimeUp (p : Slot) (m : Mem) : Prop :=
  maxTicks (m.proc p).queuePosition ≤ (m.proc p).ticksUsed + 1

def HigherWaits (p : Slot) (m : Mem) : Prop :=
  ∃ i < (m.proc p).queuePosition, m.queue.size i ≠ 0

/-- The configured policy, for a timer interrupt that finds the table `m` and makes `n` calls of
`yield`; nothing is said about PBS and LBS. -/
def Policy (b : Build) (p : Slot) (m : Mem) (n : ℕ) : Prop :=
  match b with
  | .rr => n = 1
  | .fcfs => n = 0
  | .mlfq => n ≠ 0 → TimeUp p m ∨ HigherWaits p m
  | _ => True

/-- When the calls of `yield` in `usertrap` follow the policy: the timer branch gives up the
processor in every build, before the section of the scheduler. -/
def PolicyMet (b : Build) {p : Slot} (env : Env p) (m : Mem) : Prop :=
  match b with
  | .rr => ((env.after 0 (m.setState p .runnable)).proc p).killed = true
  | .fcfs => False
  | .mlfq => TimeUp p m ∨ HigherWaits p m
  | _ => True

theorem timer_yields_policy_iff (b : Build) (R : Ram) {p : Slot} (env : Env p)
    (call : State → Flow) (s : State) (hdue : ¬ s.own.AlarmDue) :
    Policy b p s.mem (usertrap b R env call .timer s).state.yields ↔ PolicyMet b env s.mem := by
  have htrap : usertrap b R env call .timer s =
      bad b env true (yield env { s with own := s.own.bump, yields := 0 }) := by
    simp only [usertrap, timerTrap]
    rw [if_neg hdue]
  rw [htrap]
  generalize hy : yield env { s with own := s.own.bump, yields := 0 } = t
  have hone : t.yields = 1 := by rw [← hy]; rfl
  have hkilled : (t.mem.proc p).killed =
      ((env.after 0 (s.mem.setState p .runnable)).proc p).killed := by rw [← hy]; rfl
  have hsome : (bad b env true t).state.yields ≠ 0 := by
    have hkept : Kept env fun t => t.yields ≠ 0 := ⟨fun _ _ h => h, fun _ _ => Nat.succ_ne_zero _⟩
    exact hkept.bad b true (by simp [hone])
  cases b with
  | rr =>
    simp only [Policy, PolicyMet, ← hkilled]
    cases hk : (t.mem.proc p).killed with
    | true => simp [bad, hk, Ending.state, hone]
    | false => simp [bad, hk, Ending.state, yield, hone]
  | fcfs =>
    simp only [Policy, PolicyMet, iff_false]
    exact hsome
  | mlfq =>
    simp only [Policy, PolicyMet]
    exact ⟨fun h => h hsome, fun h _ => h⟩
  | pbs => exact Iff.rfl
  | lbs => exact Iff.rfl

theorem timer_yields_policy_iff_killing : ¬ (runningState (-1) (-1) false).own.AlarmDue ∧
    (usertrap .rr ⟨1, 2, 0, by decide⟩ (Env.killing Sched.initproc) .ok .timer
      (runningState (-1) (-1) false)).state.yields = 1 := by
  have hdue : ¬ (runningState (-1) (-1) false).own.AlarmDue := by decide
  refine ⟨hdue, (timer_yields_policy_iff .rr _ _ _ _ hdue).mpr ?_⟩
  simp [PolicyMet, Env.killing, Mem.setState]

def lowerState : State :=
  (runningState (-1) (-1) false).setProc Sched.initproc fun x => { x with queuePosition := 1 }

/-- Without a kill the RR build yields twice, the FCFS build once, and the MLFQ build although the
process has ticks left and every queue is empty. -/
theorem timer_yields_running :
    (usertrap .rr ⟨1, 2, 0, by decide⟩ (Env.idle Sched.initproc) .ok .timer
      lowerState).state.yields = 2 ∧
    (usertrap .fcfs ⟨1, 2, 0, by decide⟩ (Env.idle Sched.initproc) .ok .timer
      lowerState).state.yields = 1 ∧
    ¬ Policy .mlfq Sched.initproc lowerState.mem
      (usertrap .mlfq ⟨1, 2, 0, by decide⟩ (Env.idle Sched.initproc) .ok .timer
        lowerState).state.yields := by
  refine ⟨by decide, by decide, ?_⟩
  intro hpolicy
  rcases hpolicy (by decide) with htime | ⟨i, -, hsize⟩
  · exact absurd htime (by unfold TimeUp; decide)
  · exact hsize rfl

end Xv6.Trap
