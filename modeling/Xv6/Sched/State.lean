import Xv6.Param
import Xv6.Lib.Handover
import Xv6.Lib.Outcome

/-! # Process table, harts and kernel threads

The state the scheduler builds share: the process table and the MLFQ queues (`Mem`), the
spinlocks, `struct cpu` of each hart, and where each kernel thread stands. A hart runs either its
own scheduler thread or the kernel thread of one process; a thread that is switched out keeps its
program counter, exactly as `swtch` keeps its `context`.
-/

namespace Xv6.Sched
set_option autoImplicit false

inductive Build where
  | rr | fcfs | mlfq | pbs | lbs
  deriving DecidableEq

inductive ProcState where
  | unused | used | sleeping | runnable | running | zombie
  deriving DecidableEq

abbrev Slot := Fin NPROC

/-- A sleep channel: a null pointer, the address of a process, or of some other object. -/
inductive Chan where
  | null
  | proc (p : Slot)
  | obj (n : ℕ)
  deriving DecidableEq

/-- The fields of `struct proc` that the schedulers and the process calls read or write. -/
structure Proc where
  state : ProcState
  chan : Chan
  killed : Bool
  xstate : ℤ
  pid : ℕ
  parent : Option Slot
  /-- `p->trapframe` and `p->pagetable` are not null. -/
  trapframe : Bool
  pagetable : Bool
  rtime : UInt32
  ctime : UInt32
  stime : UInt32
  schedCt : ℤ
  currWaitTime : ℕ
  inQueue : Bool
  queuePosition : ℕ
  ticksUsed : ℕ
  staticPriority : ℤ
  niceness : ℤ
  tickets : ℤ

def Proc.zero : Proc where
  state := .unused
  chan := .null
  killed := false
  xstate := 0
  pid := 0
  parent := none
  trapframe := false
  pagetable := false
  rtime := 0
  ctime := 0
  stime := 0
  schedCt := 0
  currWaitTime := 0
  inQueue := false
  queuePosition := 0
  ticksUsed := 0
  staticPriority := 0
  niceness := 0
  tickets := 0

structure Queues where
  slot : ℕ → ℕ → Option Slot
  size : ℕ → ℤ
  back : ℕ → ℤ

/-- The shared kernel data. `nextpid` is the number of the next process; the variable of the code
holds its low 32 bits. -/
structure Mem where
  proc : Slot → Proc
  nextpid : ℕ
  ticks : UInt32
  queue : Queues

def Mem.set (m : Mem) (p : Slot) (f : Proc → Proc) : Mem :=
  { m with proc := Function.update m.proc p (f (m.proc p)) }

def Mem.setState (m : Mem) (p : Slot) (st : ProcState) : Mem :=
  m.set p fun x => { x with state := st }

@[simp] theorem Mem.set_proc_self (m : Mem) (p : Slot) (f : Proc → Proc) :
    (m.set p f).proc p = f (m.proc p) := by
  simp [Mem.set]

@[simp] theorem Mem.set_proc_of_ne (m : Mem) {p q : Slot} (f : Proc → Proc) (h : q ≠ p) :
    (m.set p f).proc q = m.proc q := by
  simp [Mem.set, h]

theorem Mem.set_state (m : Mem) (p : Slot) {f : Proc → Proc} (hf : ∀ x, (f x).state = x.state)
    (q : Slot) : ((m.set p f).proc q).state = (m.proc q).state := by
  by_cases hq : q = p
  · subst hq
    rw [Mem.set_proc_self, hf]
  · rw [Mem.set_proc_of_ne _ _ hq]

@[simp] theorem Mem.setState_self (m : Mem) (p : Slot) (st : ProcState) :
    ((m.setState p st).proc p).state = st := by
  simp [Mem.setState]

@[simp] theorem Mem.setState_of_ne (m : Mem) {p q : Slot} (st : ProcState) (h : q ≠ p) :
    (m.setState p st).proc q = m.proc q := by
  simp [Mem.setState, h]

/-- The spinlocks: each `p->lock`, `wait_lock`, and every lock a sleeping call may be given. -/
inductive LockId where
  | proc (p : Slot)
  | wait
  | other (n : ℕ)
  deriving DecidableEq

/-- `struct cpu`, with the hart's interrupt-enable bit. -/
structure Cpu where
  proc : Option Slot
  noff : ℕ
  intena : Bool
  intr : Bool

/-! ## Program counters -/

inductive WakeRet where
  | user
  | locked (lk : ℕ)
  | reparent (status : ℤ) (i : ℕ)
  | exit (status : ℤ)
  deriving DecidableEq

/-- Where the kernel thread of a process stands, between two lock-protected sections. -/
inductive Pc where
  | user
  /-- Kernel code that holds the spinlock `lk`. -/
  | locked (lk : ℕ)
  | wakeup (chan : Chan) (i : ℕ) (ret : WakeRet)
  | kill (pid : ℕ) (i : ℕ)
  | forkAlloc (i : ℕ)
  | forkParent (np : Slot)
  | forkReady (np : Slot)
  | exitReparent (status : ℤ) (i : ℕ)
  | exitLast (status : ℤ)
  /-- In `wait`, or in `waitx` if `x`, in the scan for exited children. -/
  | waitScan (x : Bool) (i : ℕ) (havekids : Bool)
  | waitSleep (x : Bool)
  | relockOther (lk : ℕ)
  | relockWait (x : Bool)
  /-- The MLFQ timer path, in its loop over the higher queues; `ret` is the interrupted place. -/
  | tick (i : ℕ) (ret : Pc)
  /-- The MLFQ timer path, about to call `push_queue`, one level down if `demote`. -/
  | tickPush (demote : Bool) (ret : Pc)
  /-- The MLFQ timer path, after `push_queue` and before `yield`. -/
  | tickYield (ret : Pc)
  deriving DecidableEq

def Pc.lock : Pc → Option LockId
  | locked lk => some (.other lk)
  | wakeup _ _ (.locked lk) => some (.other lk)
  | wakeup _ _ (.reparent _ _) | wakeup _ _ (.exit _) => some .wait
  | exitReparent _ _ | exitLast _ | waitScan _ _ _ | waitSleep _ => some .wait
  | wakeup _ _ .user | user | kill _ _ | forkAlloc _ | forkParent _ | forkReady _ => none
  | relockOther _ | relockWait _ | tick _ _ | tickPush _ _ | tickYield _ => none

/-- The child that a `fork` at `pc` has allocated and not yet made `RUNNABLE`. -/
def Pc.child : Pc → Option Slot
  | forkParent np | forkReady np => some np
  | tick _ ret | tickPush _ ret | tickYield ret => ret.child
  | _ => none

/-- A place that an interrupted thread will go back to holds no spinlock. -/
def Pc.Wf : Pc → Prop
  | tick _ ret | tickPush _ ret | tickYield ret => ret.lock = none ∧ ret.Wf
  | _ => True

/-- Interrupts may be on at `pc`, so that a timer interrupt can come in. -/
def Pc.interruptible : Pc → Bool
  | user | kill _ _ | forkAlloc _ | forkParent _ | forkReady _ | relockOther _ | relockWait _
  | wakeup _ _ .user => true
  | _ => false

/-- Who called `sched`, hence where the thread goes on after it. -/
inductive Ret where
  | yield (pc : Pc)
  | sleep (pc : Pc)
  | forkret
  | exit
  deriving DecidableEq

def Ret.Wf : Ret → Prop
  | yield pc | sleep pc => pc.lock = none ∧ pc.Wf
  | forkret | exit => True

def Ret.child : Ret → Option Slot
  | yield pc | sleep pc => pc.child
  | forkret | exit => none

inductive Thread where
  | at (pc : Pc)
  /-- `p->lock` held and `p->state` changed: at the call of `sched`. -/
  | sched (ret : Ret)
  | resume (ret : Ret)
  | absent
  deriving DecidableEq

def Thread.child : Thread → Option Slot
  | .at pc => pc.child
  | sched ret | resume ret => ret.child
  | absent => none

def Thread.Wf : Thread → Prop
  | .at pc => pc.Wf
  | sched ret | resume ret => ret.Wf
  | absent => True

def Thread.exited : Thread → Bool
  | sched .exit | resume .exit => true
  | _ => false

/-- The local variables of `scheduler()`, at the places where it takes its next step. -/
inductive Loc where
  | rr (i : ℕ)
  | fcfs (i : ℕ) (pLeastTime : Slot) (flag : Bool) (minTicks : UInt32)
  | fcfsTry (i : ℕ) (pLeastTime : Slot) (flag : Bool) (minTicks : UInt32)
  | pbs (i : ℕ) (minproc : Option Slot) (minPriority : UInt64)
  | lbs (i : ℕ)
  /-- MLFQ: the aging loop, the loop that fills the queues, the search for a non-empty queue. -/
  | age (i : ℕ)
  | fill (i : ℕ)
  | pop (qpos : ℕ)
  /-- MLFQ, after `size[qpos]` was seen positive, about to call `pop_queue`. -/
  | popCall (qpos : ℕ)
  /-- MLFQ, after `pop_queue` has returned `bestproc` and before its lock is taken. -/
  | popped (bestproc : Slot)
  deriving DecidableEq

def Loc.lock : Loc → Option LockId
  | pbs _ (some m) _ => some (.proc m)
  | _ => none

/-- The process a scheduler has picked and will switch to without looking at its state again. -/
def Loc.picked : Loc → Option Slot
  | pbs _ m _ => m
  | popped p => some p
  | _ => none

def Loc.build : Loc → Build
  | rr _ => .rr
  | fcfs .. | fcfsTry .. => .fcfs
  | pbs .. => .pbs
  | lbs _ => .lbs
  | age _ | fill _ | pop _ | popCall _ | popped _ => .mlfq

inductive SchedPc where
  | loop (l : Loc)
  /-- `p->state = RUNNING; c->proc = p` done, about to call `swtch`. -/
  | swtch (p : Slot) (l : Loc)
  /-- Where `swtch` resumes the scheduler when `p` gives up the hart. -/
  | ret (p : Slot) (l : Loc)
  deriving DecidableEq

def SchedPc.loc : SchedPc → Loc
  | loop l | swtch _ l | ret _ l => l

def SchedPc.picked : SchedPc → Option Slot
  | loop l => l.picked
  | _ => none

/-- PBS has picked a process that it has scanned. -/
def Loc.Wf : Loc → Prop
  | pbs i (some m) _ => m.val < i
  | _ => True

/-- A scheduler that is switched out has nothing picked for when it comes back. -/
def SchedPc.Wf : SchedPc → Prop
  | loop l => l.Wf
  | swtch _ l | ret _ l => l.picked = none

/-! ## The state and its activities -/

structure State (H : Type) where
  mem : Mem
  locks : LockId → Option H
  cpu : H → Cpu
  /-- The process whose thread the hart executes; `none` for its scheduler thread. -/
  run : H → Option Slot
  spc : H → SchedPc
  thread : Slot → Thread
  /-- The `intena` that `sched` keeps on the stack of a process. -/
  intena : Slot → Bool

open Handover (Act)

/-- What a scheduler thread is doing, in the terms of the lock handover. -/
def SchedPc.act : SchedPc → Act Slot LockId
  | loop l => .idle l.lock
  | swtch p _ => .enter p
  | ret p _ => .back p

/-- What the thread of process `p` is doing, in the terms of the lock handover. -/
def Thread.act (p : Slot) : Thread → Act Slot LockId
  | .at pc => .exec p pc.lock
  | sched _ => .leaving p
  | resume _ => .resumed p
  | absent => .exec p none

section Act
variable {H : Type} {s : State H} {h : H}

def State.act (s : State H) (h : H) : Act Slot LockId :=
  match s.run h with
  | none => (s.spc h).act
  | some p => (s.thread p).act p

theorem State.act_none (hr : s.run h = none) : s.act h = (s.spc h).act := by
  simp [State.act, hr]

theorem State.act_some {p : Slot} (hr : s.run h = some p) : s.act h = (s.thread p).act p := by
  simp [State.act, hr]

theorem Thread.act_cur (p : Slot) (t : Thread) : (t.act p).cur = some p := by
  cases t <;> simp [Thread.act, Handover.Act.cur]

theorem State.act_cur_of_run {p : Slot} (hr : s.run h = some p) : (s.act h).cur = some p := by
  rw [State.act_some hr, Thread.act_cur]

end Act
end Xv6.Sched
