import Mathlib.Data.BitVec
import Xv6.Sched.Select
import Xv6.Sched.Queue
import Xv6.Vm.User

/-! # Traps from user mode

`usertrap` and `usertrapret` of `kernel/trap.c`, `syscall` of `kernel/syscall.c`, and the alarm
calls of `kernel/sysproc.c`, as the thread of one process `p` runs them. Between the call of `swtch`
in `yield` and its return the other threads go on; `Env` has what they leave in the process table.
The kernel part of the trapframe, which `usertrapret` sets anew on every return, and the output of
`trace` are left out.
-/

namespace Xv6.Trap
set_option autoImplicit false
open Sched (Slot Mem Build NQUEUE maxTicks pushQueue int)
open Vm (Ram Kmem PageTable storeFault)

/-- The general-purpose registers, in the order of `struct trapframe`. -/
inductive Reg where
  | ra | sp | gp | tp | t0 | t1 | t2 | s0 | s1 | a0 | a1 | a2 | a3 | a4 | a5 | a6 | a7
  | s2 | s3 | s4 | s5 | s6 | s7 | s8 | s9 | s10 | s11 | t3 | t4 | t5 | t6
  deriving DecidableEq

/-- The user part of `struct trapframe`. -/
@[ext] structure Trapframe where
  epc : BitVec 64
  reg : Reg → BitVec 64

def Trapframe.set (t : Trapframe) (r : Reg) (x : BitVec 64) : Trapframe :=
  { t with reg := Function.update t.reg r x }

structure Own where
  trapframe : Trapframe
  maxAlarmTicks : ℤ
  alarmTicks : ℤ
  handler : BitVec 64
  alarmTrap : Trapframe

structure State where
  own : Own
  mem : Mem
  kmem : Kmem
  pt : PageTable
  yields : ℕ

/-! ## The other threads -/

/-- One write of another thread or of an interrupt handler to the table entry of a process that is
switched out in `yield`. -/
inductive ByOthers (x : Sched.Proc) : Sched.Proc → Prop
  | queue (wait pos used : ℕ) (inq : Bool) : ByOthers x { x with
      currWaitTime := wait, queuePosition := pos, ticksUsed := used, inQueue := inq }
  | niceness (n : ℤ) : ByOthers x { x with niceness := n }
  | dispatch (ct : ℤ) (wait : ℕ) : ByOthers x { x with
      state := .running, schedCt := ct, currWaitTime := wait }
  | kill : ByOthers x { x with killed := true }
  | parent (o : Option Slot) : ByOthers x { x with parent := o }
  | time (rtime stime : UInt32) (wait : ℕ) : ByOthers x { x with
      rtime := rtime, stime := stime, currWaitTime := wait }
  | tickets (n : ℤ) : ByOthers x { x with tickets := n }
  | priority (n : ℤ) : ByOthers x { x with
      niceness := 5, rtime := 0, stime := 0, staticPriority := n }

/-- What the others do during the `n`-th `yield` of `p`: they leave a table in which the entry of
`p` has only seen their writes, and `p` is `RUNNING` again. -/
structure Env (p : Slot) where
  after : ℕ → Mem → Mem
  byOthers : ∀ n m, Relation.ReflTransGen ByOthers (m.proc p) ((after n m).proc p)
  running : ∀ n m, ((after n m).proc p).state = .running

/-! ## The handler -/

/-- What the thread of `p` does at the end of a trap: `usertrapret`, `exit(status)`, or it stops the
kernel. -/
inductive Ending where
  | user (s : State)
  | exit (status : ℤ) (s : State)
  | fail (e : Failure) (s : State)

def Ending.state : Ending → State
  | .user s => s
  | .exit _ s => s
  | .fail _ s => s

abbrev Flow := Except Ending State

def Flow.finish (f : Flow) (k : State → Ending) : Ending :=
  match f with
  | .error e => e
  | .ok s => k s

def State.setProc (s : State) (p : Slot) (f : Sched.Proc → Sched.Proc) : State :=
  { s with mem := s.mem.set p f }

def yield {p : Slot} (env : Env p) (s : State) : State :=
  { s with mem := env.after s.yields (s.mem.setState p .runnable), yields := s.yields + 1 }

def requeue {p : Slot} (env : Env p) (q : ℕ) (s : State) : Flow :=
  match pushQueue p q (s.setProc p fun x => { x with ticksUsed := 0 }).mem with
  | .ok m => .ok (yield env { s with mem := m })
  | .fail e => .error (.fail e s)
  | .blocked => .error (.fail .fault s)

/-- The `while` loop over the queues above that of `p`, with `n` queues left to look at. A level
past the last one is outside the arrays of `queue_struct`. -/
def higherLoop {p : Slot} (env : Env p) : (n : ℕ) → State → Flow
  | 0, s => if NQUEUE ≤ (s.mem.proc p).queuePosition then .error (.fail .fault s) else .ok s
  | n + 1, s =>
    let i := NQUEUE - (n + 1)
    let pos := (s.mem.proc p).queuePosition
    if i < pos then
      if s.mem.queue.size i ≠ 0 then do
        let s ← requeue env pos s
        higherLoop env n s
      else higherLoop env n s
    else .ok s

def mlfqTick {p : Slot} (env : Env p) (s : State) : Flow :=
  if (s.mem.proc p).state = .running then do
    let s ← higherLoop env NQUEUE (s.setProc p fun x => { x with ticksUsed := x.ticksUsed + 1 })
    let pos := (s.mem.proc p).queuePosition
    if maxTicks pos ≤ (s.mem.proc p).ticksUsed then
      requeue env (if pos ≤ 3 then pos + 1 else 4) s
    else .ok s
  else .ok s

/-- From the label `bad` on; `timer` is `which_dev == 2`. -/
def bad (b : Build) {p : Slot} (env : Env p) (timer : Bool) (s : State) : Ending :=
  if (s.mem.proc p).killed then .exit (-1) s
  else if timer then
    match b with
    | .rr => .user (yield env s)
    | .mlfq => Flow.finish (mlfqTick env s) .user
    | _ => .user s
  else .user s

def Own.bump (o : Own) : Own :=
  if 1 ≤ o.maxAlarmTicks ∧ -1 < o.alarmTicks then
    { o with alarmTicks := int (o.alarmTicks + 1) } else o

def Own.AlarmDue (o : Own) : Prop :=
  1 ≤ o.maxAlarmTicks ∧ o.bump.alarmTicks = o.maxAlarmTicks

instance (o : Own) : Decidable o.AlarmDue := inferInstanceAs (Decidable (_ ∧ _))

def Own.deliver (o : Own) : Own :=
  { o with alarmTicks := -1, alarmTrap := o.trapframe,
           trapframe := { o.trapframe with epc := o.handler } }

/-- `scause`, with the device of an external interrupt as `devintr` finds it. -/
inductive Cause where
  | syscall
  | timer
  | device
  | store (v : ℕ)
  | other
  deriving DecidableEq

def setkilled (p : Slot) (s : State) : State := s.setProc p fun x => { x with killed := true }

def storeTrap (b : Build) (R : Ram) {p : Slot} (env : Env p) (v : ℕ) (s : State) : Ending :=
  match storeFault R v s.kmem s.pt with
  | .ok (true, kmem, pt) => bad b env false { s with kmem := kmem, pt := pt }
  | .ok (false, kmem, pt) => bad b env false (setkilled p { s with kmem := kmem, pt := pt })
  | .fail e => .fail e s
  | .blocked => .fail .fault s

def timerTrap (b : Build) {p : Slot} (env : Env p) (s : State) : Ending :=
  let own := s.own.bump
  if s.own.AlarmDue then .user { s with own := own.deliver }
  else bad b env true (yield env { s with own := own })

/-- `usertrap`; the registers are in the trapframe, as `uservec` has saved them, and `call` is what
`syscall` does. -/
def usertrap (b : Build) (R : Ram) {p : Slot} (env : Env p) (call : State → Flow) (c : Cause)
    (s : State) : Ending :=
  let s := { s with yields := 0 }
  match c with
  | .syscall =>
    if (s.mem.proc p).killed then .exit (-1) s
    else
      let t := s.own.trapframe
      Flow.finish (call { s with own.trapframe := { t with epc := t.epc + 4 } }) (bad b env false)
  | .timer => timerTrap b env s
  | .device => bad b env false s
  | .store v => storeTrap b R env v s
  | .other => bad b env false (setkilled p s)

/-! ## System calls -/

def Trapframe.argint (t : Trapframe) (r : Reg) : BitVec 32 := (t.reg r).setWidth 32

/-- The calls that do something to the trapframe or the alarm, or do not return. -/
inductive Num where
  | exit | exec | sigalarm | sigreturn
  | plain
  | unknown
  deriving DecidableEq

def Trapframe.num (t : Trapframe) : Num :=
  let n := (t.argint .a7).toInt
  if n = 2 then .exit else if n = 7 then .exec else if n = 23 then .sigalarm
  else if n = 24 then .sigreturn else if 0 < n ∧ n < 28 then .plain else .unknown

def sysSigalarm (o : Own) : BitVec 64 × Own :=
  let ticks := (o.trapframe.argint .a0).toInt
  if 0 ≤ ticks then
    (0, { o with handler := (o.trapframe.argint .a1).signExtend 64, alarmTicks := 0,
                 maxAlarmTicks := ticks })
  else (-1, o)

def sysSigreturn (o : Own) : BitVec 64 × Own :=
  if o.alarmTicks = -1 then (0, { o with alarmTicks := 0, trapframe := o.alarmTrap }) else (-1, o)

/-- What the rest of the kernel makes of a system call: its return value, the entry point and the
stack pointer if it is an `exec` that succeeds, and what it and the other threads leave in
the process table and the memory. -/
structure Reply where
  ret : BitVec 64
  image : Option (BitVec 64 × BitVec 64)
  mem : Mem
  kmem : Kmem
  pt : PageTable

def Reply.run (r : Reply) (o : Own) : BitVec 64 × Own :=
  match o.trapframe.num with
  | .sigalarm => sysSigalarm o
  | .sigreturn => sysSigreturn o
  | .exec =>
    match r.image with
    | some (entry, sp) =>
      (r.ret, { o with trapframe := { (o.trapframe.set .a1 sp).set .sp sp with epc := entry } })
    | none => (r.ret, o)
  | .unknown => (-1, o)
  | _ => (r.ret, o)

/-- The return value goes to `a0` of the trapframe that the call leaves. -/
def Reply.finish (r : Reply) (o : Own) : Own :=
  let (ret, own) := r.run o
  { own with trapframe := own.trapframe.set .a0 ret }

def syscall (r : Reply) (s : State) : Flow :=
  let s := { s with mem := r.mem, kmem := r.kmem, pt := r.pt }
  if s.own.trapframe.num = .exit then .error (.exit (s.own.trapframe.argint .a0).toInt s)
  else .ok { s with own := r.finish s.own }

/-! ## What the code after the label `bad` keeps -/

section
variable {p : Slot} {env : Env p} {P : State → Prop}

/-- Every state that `f` leads to, or ends the trap in, meets `P`. -/
def Flow.All (f : Flow) (P : State → Prop) : Prop := P (f.finish .user).state

theorem Flow.All.bind {f : Flow} {k : State → Flow} (hf : f.All P)
    (hk : ∀ s, P s → Flow.All (k s) P) : Flow.All (f >>= k) P := by
  cases f with
  | error e => exact hf
  | ok s => exact hk s hf

/-- `P` does not look at the process table, and a `yield` keeps it. -/
structure Kept (env : Env p) (P : State → Prop) : Prop where
  mem : ∀ s m, P s → P { s with mem := m }
  yield : ∀ s, P s → P (yield env s)

variable {s : State}

theorem Kept.requeue (hP : Kept env P) (q : ℕ) (hs : P s) : (requeue env q s).All P := by
  rw [Trap.requeue]
  split
  · exact hP.yield _ (hP.mem s _ hs)
  · exact hs
  · exact hs

theorem Kept.higherLoop (hP : Kept env P) (n : ℕ) (hs : P s) : (higherLoop env n s).All P := by
  induction n generalizing s with
  | zero =>
    rw [Trap.higherLoop]
    split
    · exact hs
    · exact hs
  | succ n ih =>
    rw [Trap.higherLoop]
    split
    · split
      · exact (hP.requeue _ hs).bind fun t ht => ih ht
      · exact ih hs
    · exact hs

theorem Kept.mlfqTick (hP : Kept env P) (hs : P s) : (mlfqTick env s).All P := by
  rw [Trap.mlfqTick]
  split
  · refine (hP.higherLoop NQUEUE (hP.mem s _ hs)).bind ?_
    intro t ht
    dsimp only
    split
    · exact hP.requeue _ ht
    · exact ht
  · exact hs

theorem Kept.bad (hP : Kept env P) (b : Build) (timer : Bool) (hs : P s) :
    P (bad b env timer s).state := by
  unfold Trap.bad
  split
  · exact hs
  · split
    · cases b with
      | rr => exact hP.yield s hs
      | mlfq => exact hP.mlfqTick hs
      | fcfs => exact hs
      | pbs => exact hs
      | lbs => exact hs
    · exact hs

end

end Xv6.Trap
