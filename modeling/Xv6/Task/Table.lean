import Xv6.Sched.Priority
import Xv6.Vm.System

/-! # The process calls

`fork`, `exit`, `wait`, `waitx`, `set_static_priority` and the clock as whole calls, on the process
table of the schedulers together with the memory of the processes and the reference counts of open
files and inodes.
-/

namespace Xv6.Task
set_option autoImplicit false
open Xv6.Sched (Slot Mem initproc)

/-- The fields of `struct proc` that belong neither to the schedulers nor to the memory. -/
structure Extra where
  ofile : Fin NOFILE → Option ℕ
  cwd : Option ℕ
  name : String
  traceMask : ℤ
  maxAlarmTicks : ℤ
  alarmTicks : ℤ
  handler : ℤ
  etime : UInt32
  queueTime : ℕ → ℤ
  queueEntry : ℤ

def Extra.zero : Extra where
  ofile := fun _ => none
  cwd := none
  name := ""
  traceMask := 0
  maxAlarmTicks := 0
  alarmTicks := 0
  handler := 0
  etime := 0
  queueTime := fun _ => 0
  queueEntry := 0

/-- `file` and `inode` are the reference counts of `ftable` and of the inode table. `visit` is the
slot that `update_time` comes to next, and `NPROC` if no clock interrupt is going on. -/
structure State where
  vm : Vm.State Slot
  mem : Mem
  extra : Slot → Extra
  file : ℕ → ℤ
  inode : ℕ → ℤ
  visit : ℕ

@[simps]
def State.setExtra (s : State) (q : Slot) (f : Extra → Extra) : State :=
  { s with extra := Function.update s.extra q (f (s.extra q)) }

@[simps]
def State.setMem (s : State) (q : Slot) (f : Sched.Proc → Sched.Proc) : State :=
  { s with mem := s.mem.set q f }

/-! ## `allocproc` and `freeproc` -/

def findUnused (m : Mem) : Option Slot :=
  (List.finRange NPROC).find? fun q => (m.proc q).state = .unused

def allocBegin (q : Slot) (s : State) : State :=
  let s := { s with mem := { s.mem.set q fun x => { x with
    pid := s.mem.nextpid % 2 ^ 32, state := .used, queuePosition := 0, ticksUsed := 0
    inQueue := false, currWaitTime := 0, staticPriority := 60, niceness := 5 } with
    nextpid := s.mem.nextpid + 1 } }
  s.setExtra q fun x => { x with queueEntry := 0, queueTime := fun _ => 0 }

def allocEnd (q : Slot) (s : State) : State :=
  let s := s.setMem q fun x => { x with
    trapframe := true, pagetable := true, rtime := 0, ctime := s.mem.ticks, stime := 0
    ticksUsed := 0, queuePosition := 0, inQueue := false, currWaitTime := 0 }
  s.setExtra q fun x => { x with
    maxAlarmTicks := -1, alarmTicks := -1, handler := -1, etime := 0, queueEntry := 0 }

def freeFields (q : Slot) (s : State) : State :=
  { s with mem := Sched.freeproc q s.mem }.setExtra q fun x => { x with name := "", etime := 0 }

def allocproc (R : Vm.Ram) (s : State) : Outcome Failure (Option Slot × State) :=
  match findUnused s.mem with
  | none => pure (none, s)
  | some q => do
    let s := allocBegin q s
    let vm ← Vm.allocproc R q s.vm
    let s := { s with vm := vm }
    match vm.slot q with
    | .fresh _ => pure (some q, allocEnd q s)
    | _ => pure (none, freeFields q s)

/-! ## `fork` -/

/-- The reference counts after `filedup` of every open file of `x`. -/
def dupFiles (x : Extra) (file : ℕ → ℤ) : ℕ → ℤ :=
  (List.finRange NOFILE).foldl (fun f i => match x.ofile i with
    | none => f
    | some n => Function.update f n (f n + 1)) file

/-- The reference counts after `idup` of the current directory of `x`. -/
def dupCwd (x : Extra) (inode : ℕ → ℤ) : ℕ → ℤ :=
  match x.cwd with
  | none => inode
  | some n => Function.update inode n (inode n + 1)

def forkEnd (p q : Slot) (s : State) : State :=
  let x := s.extra p
  let s := { s with file := dupFiles x s.file, inode := dupCwd x s.inode }
  let s := s.setExtra q fun y => { y with
    traceMask := x.traceMask, ofile := x.ofile, cwd := x.cwd, name := x.name }
  s.setMem q fun y => { y with
    tickets := (s.mem.proc p).tickets, parent := some p, state := .runnable }

/-- `fork` of process `p`; the result is the child's pid, or `none` for -1. -/
def fork (R : Vm.Ram) (p : Slot) (s : State) : Outcome Failure (Option ℕ × State) :=
  match s.vm.running p with
  | none => .blocked
  | some x => do
    let (np, s) ← allocproc R s
    match np with
    | none => pure (none, s)
    | some q =>
      match s.vm.slot q with
      | .fresh y => do
        let vm ← Vm.forkCopy R p q x y s.vm
        let s := { s with vm := vm }
        match vm.slot q with
        | .live _ => pure (some (s.mem.proc q).pid, forkEnd p q s)
        | _ => pure (none, freeFields q s)
      | _ => .blocked

/-! ## `exit` -/

/-- `reparent`; the wakeups of `initproc` are steps of their own. -/
def reparent (p : Slot) (m : Mem) : Mem :=
  { m with proc := fun q =>
      if (m.proc q).parent = some p then { m.proc q with parent := some initproc } else m.proc q }

/-- `exit` of process `p`. What closing its files and releasing its directory does to the counts is
left open: `file` and `inode` are the counts afterwards. -/
def exit (p : Slot) (status : ℤ) (file inode : ℕ → ℤ) (s : State) : Outcome Failure State :=
  if p = initproc then .fail (.panic "init exiting")
  else
    let s := { s with file := file, inode := inode, mem := reparent p s.mem }
    let s := s.setMem p fun x => { x with xstate := status, state := .zombie }
    pure (s.setExtra p fun x => { x with
      ofile := fun _ => none, cwd := none, etime := s.mem.ticks })

/-! ## `wait` and `waitx` -/

def findZombie (m : Mem) (p : Slot) : Option Slot :=
  (List.finRange NPROC).find? fun q => (m.proc q).parent = some p ∧ (m.proc q).state = .zombie

def havekids (m : Mem) (p : Slot) : Bool :=
  (List.finRange NPROC).any fun q => (m.proc q).parent = some p

def intBytes (x : ℤ) : List UInt8 :=
  (List.range 4).map fun i => UInt8.ofNat ((x % 2 ^ 32).toNat / 256 ^ i % 256)

def uintBytes (x : UInt32) : List UInt8 := intBytes x.toNat

def copyTo (R : Vm.Ram) (p : Slot) (addr : ℕ) (src : List UInt8) (s : State) :
    Outcome Failure (Bool × State) :=
  match s.vm.running p with
  | none => .blocked
  | some x => do
    let (ok, k, pt) ← Vm.copyout R addr src s.vm.kmem x.pt
    pure (ok, { s with vm := s.vm.setSlot p (.live { x with pt := pt }) k })

def freeproc (R : Vm.Ram) (q : Slot) (s : State) : Outcome Failure State :=
  match s.vm.running q with
  | none => .blocked
  | some y => do
    let k ← Vm.freeproc R y s.vm.kmem
    pure (freeFields q { s with vm := s.vm.setSlot q .unused k })

/-- How a scan ends: the caller goes to sleep and will scan again, or the call returns a pid or,
with `none`, -1. -/
inductive Ret where
  | asleep
  | done (pid : Option ℕ)
  deriving DecidableEq

/-- The exit status of `q` is copied out unless `addr` is 0. -/
def copyStatus (R : Vm.Ram) (p q : Slot) (addr : ℕ) (s : State) : Outcome Failure (Bool × State) :=
  if addr ≠ 0 then copyTo R p addr (intBytes (s.mem.proc q).xstate) s else pure (true, s)

def waitFound (R : Vm.Ram) (p q : Slot) (addr : ℕ) (s : State) :
    Outcome Failure (Option ℕ × State) := do
  let (ok, s) ← copyStatus R p q addr s
  if !ok then pure (none, s)
  else do
    let pid := (s.mem.proc q).pid
    let s ← freeproc R q s
    pure (some pid, s)

def waitNone (m : Mem) (p : Slot) : Ret :=
  if !havekids m p || (m.proc p).killed then .done none else .asleep

def wait (R : Vm.Ram) (p : Slot) (addr : ℕ) (s : State) : Outcome Failure (Ret × State) :=
  match findZombie s.mem p with
  | some q => do
    let (pid, s) ← waitFound R p q addr s
    pure (.done pid, s)
  | none => pure (waitNone s.mem p, s)

/-- The locals of `sys_waitx` that `waitx` gets pointers to. -/
structure Locals where
  wtime : UInt32
  rtime : UInt32
  deriving DecidableEq

def reported (s : State) (q : Slot) : Locals where
  rtime := (s.mem.proc q).rtime
  wtime := (s.extra q).etime - (s.mem.proc q).ctime - (s.mem.proc q).rtime

def waitx (R : Vm.Ram) (p : Slot) (addr : ℕ) (l : Locals) (s : State) :
    Outcome Failure (Ret × Locals × State) :=
  match findZombie s.mem p with
  | some q => do
    let l := reported s q
    let (pid, s) ← waitFound R p q addr s
    pure (.done pid, l, s)
  | none => pure (waitNone s.mem p, l, s)

/-- `sys_waitx`; `l` are its locals before the call. -/
def sysWaitx (R : Vm.Ram) (p : Slot) (addr addr1 addr2 : ℕ) (l : Locals) (s : State) :
    Outcome Failure (Ret × State) := do
  let (r, l, s) ← waitx R p addr l s
  match r with
  | .asleep => pure (.asleep, s)
  | .done ret => do
    let (ok, s) ← copyTo R p addr1 (uintBytes l.wtime) s
    if !ok then pure (.done none, s)
    else do
      let (ok, s) ← copyTo R p addr2 (uintBytes l.rtime) s
      if !ok then pure (.done none, s) else pure (.done ret, s)

/-! ## The clock and priorities -/

def updateTime (q : Slot) (s : State) : State :=
  let x := s.mem.proc q
  let s := { s with mem := Sched.updateTime q s.mem }
  s.setExtra q fun y => { y with
    queueTime :=
      if x.state = .running ∨ x.state = .sleeping ∨ x.state = .runnable then
        Function.update y.queueTime x.queuePosition (y.queueTime x.queuePosition + 1)
      else y.queueTime }

/-- What `set_static_priority(priority, pid)` of process `p` does to the table. -/
def setPriority (p : Slot) (priority pid : ℤ) (s : State) : State :=
  { s with mem := (Sched.setStaticPriority p priority (pid % 2 ^ 32).toNat s.mem).mem }

end Xv6.Task
