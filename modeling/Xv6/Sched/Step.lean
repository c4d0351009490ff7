import Xv6.Lib.TransSys
import Xv6.Sched.Spin
import Xv6.Sched.Queue
import Xv6.Sched.Select

/-! # The steps of the harts

One step is a section between the acquire and the release of a process lock, one call of a queue
function, or the code between two such sections. `swtch` is a step of its own in both directions,
so the states right before and right after it are states of the system.

`scheduler()` is followed for every build, and on the side of the processes `sched`, `yield`,
`sleep`, `wakeup`, `kill`, `fork`, `exit`, `wait`, `waitx` and the MLFQ timer path of `usertrap` and
`kerneltrap`.
-/

namespace Xv6.Sched
set_option autoImplicit false
open Function (update)

def initproc : Slot := ⟨0, NPROC_pos⟩

section
variable {H : Type} [DecidableEq H]

@[simps]
def State.goSched (s : State H) (h : H) (pc : SchedPc) : State H :=
  { s with spc := update s.spc h pc }

@[simps]
def State.goThread (s : State H) (p : Slot) (t : Thread) : State H :=
  { s with thread := update s.thread p t }

@[simps]
def State.setMem (s : State H) (f : Mem → Mem) : State H := { s with mem := f s.mem }

@[simps]
def State.setProc (s : State H) (h : H) (p : Option Slot) : State H :=
  { s with cpu := update s.cpu h { s.cpu h with proc := p } }

/-! ## The scheduler thread -/

/-- `p->state = RUNNING; c->proc = p;` with `p->lock` held. -/
def dispatch (h : H) (p : Slot) (l : Loc) (s : State H) : State H :=
  ((s.setMem fun m => m.setState p .running).setProc h (some p)).goSched h (.swtch p l)

/-- A new round of the outer loop, which starts with `intr_on()`. -/
def again (h : H) (l : Loc) (s : State H) : State H :=
  (s.setCpu h { s.cpu h with intr := true }).goSched h (.loop l)

/-- The body of a scan: lock `p`, and either switch to it or release it and go on at `l`. -/
def tryProc (h : H) (p : Slot) (ready : Mem → Bool) (l : Loc) (s : State H) :
    Outcome Failure (State H) := do
  let s ← acquire h (.proc p) s
  if ready s.mem then pure (dispatch h p l s)
  else do
    let s ← release h (.proc p) s
    pure (s.goSched h (.loop l))

def isRunnable (p : Slot) (m : Mem) : Bool := (m.proc p).state = .runnable

def rrStep (h : H) (i : ℕ) (s : State H) : Outcome Failure (State H) :=
  if hi : i < NPROC then tryProc h ⟨i, hi⟩ (isRunnable ⟨i, hi⟩) (.rr (i + 1)) s
  else pure (again h (.rr 0) s)

def fcfsStep (h : H) (i : ℕ) (pLeastTime : Slot) (flag : Bool) (minTicks : UInt32) (s : State H) :
    Outcome Failure (State H) :=
  if hi : i < NPROC then
    let p : Slot := ⟨i, hi⟩
    let (least, flag, minTicks) := fcfsLook p (s.mem.proc p) pLeastTime flag minTicks
    pure (s.goSched h (.loop (.fcfsTry i least flag minTicks)))
  else pure (again h (.fcfs 0 pLeastTime false (-1)) s)

def fcfsTryStep (h : H) (i : ℕ) (p : Slot) (flag : Bool) (minTicks : UInt32) (s : State H) :
    Outcome Failure (State H) :=
  tryProc h p (isRunnable p) (.fcfs (i + 1) p flag minTicks) s

/-- The body of the PBS scan for `p`, which is `proc[i]`. -/
def pbsLook (h : H) (i : ℕ) (p : Slot) (minproc : Option Slot) (minPriority : UInt64)
    (s : State H) : Outcome Failure (State H) := do
  let s ← acquire h (.proc p) s
  if (s.mem.proc p).state ≠ .runnable then do
    let s ← release h (.proc p) s
    pure (s.goSched h (.loop (.pbs (i + 1) minproc minPriority)))
  else do
    let dp := getDynamicPriority (s.mem.proc p)
    let s := s.setMem fun m => m.set p fun x => { x with niceness := (niceness x).toNat }
    match minproc with
    | none => pure (s.goSched h (.loop (.pbs (i + 1) (some p) dp)))
    | some m =>
      -- exactly one of the two locks is released, whichever branch is taken
      if pbsReplaces (s.mem.proc m) (s.mem.proc p) dp minPriority then do
        let s ← release h (.proc m) s
        pure (s.goSched h (.loop (.pbs (i + 1) (some p) minPriority)))
      else do
        let s ← release h (.proc p) s
        pure (s.goSched h (.loop (.pbs (i + 1) (some m) minPriority)))

def pbsEnd (h : H) (s : State H) : Option Slot → State H
  | none => again h (.pbs 0 none 0) s
  | some m =>
    dispatch h m (.pbs 0 none 0)
      (s.setMem fun k => k.set m fun x => { x with schedCt := x.schedCt + 1 })

def pbsStep (h : H) (i : ℕ) (minproc : Option Slot) (minPriority : UInt64) (s : State H) :
    Outcome Failure (State H) :=
  if hi : i < NPROC then pbsLook h i ⟨i, hi⟩ minproc minPriority s
  else pure (pbsEnd h s minproc)

/-- `r` is what `random()` returns. -/
def lbsStep (h : H) (i : ℕ) (r : UInt32) (s : State H) : Outcome Failure (State H) :=
  if hi : i < NPROC then
    let p : Slot := ⟨i, hi⟩
    tryProc h p (fun m => isRunnable p m && decide (allot m p r < 0)) (.lbs (i + 1)) s
  else pure (again h (.lbs 0) s)

def ageOne (p : Slot) (m : Mem) : Outcome Failure Mem :=
  let x := m.proc p
  if x.inQueue ∧ x.currWaitTime > MAXWAITTIME ∧ x.queuePosition > 0 then
    pushQueue p (x.queuePosition - 1) (removeQueue p x.queuePosition m)
  else pure m

theorem ageOne_state {p : Slot} {m m' : Mem} (hm : ageOne p m = .ok m') (q : Slot) :
    (m'.proc q).state = (m.proc q).state := by
  simp only [ageOne] at hm
  split at hm
  · rw [pushQueue_state hm, removeQueue_proc]
  · cases hm
    rfl

def fillOne (p : Slot) (m : Mem) : Outcome Failure Mem :=
  let x := m.proc p
  if x.state = .runnable ∧ x.inQueue = false then pushQueue p x.queuePosition m else pure m

/-- One iteration of either loop: `body` on `proc[i]` with its lock held. -/
def mlfqScan (body : Slot → Mem → Outcome Failure Mem) (h : H) (p : Slot) (l : Loc)
    (s : State H) : Outcome Failure (State H) := do
  let s ← acquire h (.proc p) s
  let m ← body p s.mem
  let s ← release h (.proc p) { s with mem := m }
  pure (s.goSched h (.loop l))

def ageStep (h : H) (i : ℕ) (s : State H) : Outcome Failure (State H) :=
  if hi : i < NPROC then mlfqScan ageOne h ⟨i, hi⟩ (.age (i + 1)) s
  else pure (s.goSched h (.loop (.fill 0)))

def fillStep (h : H) (i : ℕ) (s : State H) : Outcome Failure (State H) :=
  if hi : i < NPROC then mlfqScan fillOne h ⟨i, hi⟩ (.fill (i + 1)) s
  else pure (s.goSched h (.loop (.pop 0)))

def popStep (h : H) (qpos : ℕ) (s : State H) : Outcome Failure (State H) :=
  if qpos < NQUEUE then
    if s.mem.queue.size qpos > 0 then pure (s.goSched h (.loop (.popCall qpos)))
    else pure (s.goSched h (.loop (.pop (qpos + 1))))
  else pure (again h (.age 0) s)

def popCallStep (h : H) (qpos : ℕ) (s : State H) : Outcome Failure (State H) := do
  let (p, m) ← popQueue qpos s.mem
  pure ((s.setMem fun _ => m).goSched h (.loop (.popped p)))

/-- `bestproc` is locked and dispatched; its state is not looked at. -/
def poppedStep (h : H) (p : Slot) (s : State H) : Outcome Failure (State H) := do
  let s ← acquire h (.proc p) s
  pure (dispatch h p (.age 0)
    (s.setMem fun m => m.set p fun x => { x with schedCt := x.schedCt + 1, currWaitTime := 0 }))

def locStep (h : H) (r : UInt32) (s : State H) : Loc → Outcome Failure (State H)
  | .rr i => rrStep h i s
  | .fcfs i p flag t => fcfsStep h i p flag t s
  | .fcfsTry i p flag t => fcfsTryStep h i p flag t s
  | .pbs i m prio => pbsStep h i m prio s
  | .lbs i => lbsStep h i r s
  | .age i => ageStep h i s
  | .fill i => fillStep h i s
  | .pop q => popStep h q s
  | .popCall q => popCallStep h q s
  | .popped p => poppedStep h p s

/-- The next step of the scheduler thread: in its loops, the `swtch` into a process, or what
follows the `swtch` back. -/
def schedStep (h : H) (r : UInt32) (s : State H) : Outcome Failure (State H) :=
  match s.spc h with
  | .loop l => locStep h r s l
  | .swtch p l => pure { s.goSched h (.ret p l) with run := update s.run h (some p) }
  | .ret p l => do
    let s ← release h (.proc p) (s.setProc h none)
    pure (s.goSched h (.loop l))

/-! ## The threads of the processes -/

def schedCall (h : H) (t : Slot) (ret : Ret) (s : State H) : Outcome Failure (State H) :=
  match (s.cpu h).proc with
  | none => .fail .fault
  | some p =>
    if s.locks (.proc p) ≠ some h then .fail (.panic "sched p->lock")
    else if (s.cpu h).noff ≠ 1 then .fail (.panic "sched locks")
    else if (s.mem.proc p).state = .running then .fail (.panic "sched running")
    else if (s.cpu h).intr then .fail (.panic "sched interruptible")
    else pure { s.goThread t (.resume ret) with
      intena := update s.intena t (s.cpu h).intena
      run := update s.run h none }

def restoreIntena (h : H) (p : Slot) (s : State H) : State H :=
  s.setCpu h { s.cpu h with intena := s.intena p }

/-- The thread of `p` goes on after the `swtch` into it, up to the release of `p->lock`. -/
def resumeStep (h : H) (p : Slot) (s : State H) : Ret → Outcome Failure (State H)
  | .yield pc => do
    let s ← release h (.proc p) (restoreIntena h p s)
    pure (s.goThread p (.at pc))
  | .sleep pc => do
    let s := (restoreIntena h p s).setMem fun m => m.set p fun x => { x with chan := .null }
    let s ← release h (.proc p) s
    pure (s.goThread p (.at pc))
  | .forkret => do
    let s ← release h (.proc p) s
    pure (s.goThread p (.at .user))
  | .exit => .fail (.panic "zombie exit")

def yieldStep (h : H) (p : Slot) (pc : Pc) (s : State H) : Outcome Failure (State H) := do
  let s ← acquire h (.proc p) s
  pure ((s.setMem fun m => m.setState p .runnable).goThread p (.sched (.yield pc)))

/-- `sleep(chan, lk)`, up to its `sched()`; it goes on at `pc`. -/
def sleepStep (h : H) (p : Slot) (chan : Chan) (lk : LockId) (pc : Pc) (s : State H) :
    Outcome Failure (State H) := do
  let s ← acquire h (.proc p) s
  let s ← release h lk s
  let s := s.setMem fun m => m.set p fun x => { x with chan := chan, state := .sleeping }
  pure (s.goThread p (.sched (.sleep pc)))

def wakeOne (chan : Chan) (q : Slot) (m : Mem) : Mem :=
  if (m.proc q).state = .sleeping ∧ (m.proc q).chan = chan then m.setState q .runnable else m

def killOne (pid : ℕ) (q : Slot) (m : Mem) : Mem :=
  if (m.proc q).pid = pid then
    m.set q fun x => { x with
      killed := true
      state := if x.state = .sleeping then .runnable else x.state }
  else m

/-- `allocproc` once it has found the slot `q`, and what `fork` adds before it releases it. -/
def allocOne (p q : Slot) (m : Mem) : Mem :=
  { m.set q fun x => { x with
      pid := m.nextpid % 2 ^ 32, state := .used, trapframe := true, pagetable := true
      queuePosition := 0, ticksUsed := 0, inQueue := false
      currWaitTime := 0, staticPriority := 60, niceness := 5, rtime := 0, ctime := m.ticks
      stime := 0, tickets := (m.proc p).tickets } with
    nextpid := m.nextpid + 1 }

def freeproc (q : Slot) (m : Mem) : Mem :=
  m.set q fun x => { x with
    trapframe := false, pagetable := false, pid := 0, parent := none, chan := .null
    killed := false, xstate := 0, state := .unused
    staticPriority := 0, niceness := 5, rtime := 0, stime := 0, schedCt := 0 }

/-- `allocproc` or `uvmcopy` has run out of memory: the slot is freed again. -/
def allocFail (p q : Slot) (m : Mem) : Mem := freeproc q (allocOne p q m)

/-- `ticks++` of `clockintr`. -/
def Mem.tick (m : Mem) : Mem := { m with ticks := m.ticks + 1 }

def updateTime (q : Slot) (m : Mem) : Mem :=
  m.set q fun x => { x with
    currWaitTime :=
      if x.state = .sleeping ∨ x.state = .runnable then x.currWaitTime + 1 else x.currWaitTime
    rtime := if x.state = .running then x.rtime + 1 else x.rtime
    stime := if x.state = .sleeping then x.stime + 1 else x.stime }

/-- `settickets`: the process itself, then the first slot with its pid. -/
def settickets (p : Slot) (n : ℤ) (m : Mem) : Mem :=
  let m := m.set p fun x => { x with tickets := n }
  match (List.finRange NPROC).find? fun q => (m.proc q).pid = (m.proc p).pid with
  | some q => m.set q fun x => { x with tickets := n }
  | none => m

def sysSettickets (p : Slot) (num : ℤ) (m : Mem) : Mem :=
  if num ≥ 1 then settickets p num m else m

theorem sysSettickets_induction {P : Mem → Prop} {p : Slot} {num : ℤ} {m : Mem} (hm : P m)
    (hset : ∀ m q, 1 ≤ num → P m → P (m.set q fun x => { x with tickets := num })) :
    P (sysSettickets p num m) := by
  rw [sysSettickets]
  split
  · next hnum =>
    rw [settickets]
    have hp := hset m p hnum hm
    cases List.find? _ (List.finRange NPROC) with
    | none => exact hp
    | some q => exact hset _ q hnum hp
  · exact hm

theorem sysSettickets_state (p : Slot) (num : ℤ) (m : Mem) (q : Slot) :
    ((sysSettickets p num m).proc q).state = (m.proc q).state := by
  refine sysSettickets_induction (P := fun k => (k.proc q).state = (m.proc q).state) rfl ?_
  intro k r _ hk
  rw [Mem.set_state k r (fun _ => by rfl) q]
  exact hk

def WakeRet.pc : WakeRet → Pc
  | user => .user
  | locked lk => .locked lk
  | reparent status i => .exitReparent status i
  | exit status => .exitLast status

def wakeupStep (h : H) (p : Slot) (chan : Chan) (i : ℕ) (ret : WakeRet) (s : State H) :
    Outcome Failure (State H) :=
  if hi : i < NPROC then
    let q : Slot := ⟨i, hi⟩
    if (s.cpu h).proc ≠ some q then do
      let s ← critical h (.proc q) (wakeOne chan q) s
      pure (s.goThread p (.at (.wakeup chan (i + 1) ret)))
    else pure (s.goThread p (.at (.wakeup chan (i + 1) ret)))
  else pure (s.goThread p (.at ret.pc))

def killStep (h : H) (p : Slot) (pid i : ℕ) (s : State H) : Outcome Failure (State H) :=
  if hi : i < NPROC then do
    let q : Slot := ⟨i, hi⟩
    let found := decide ((s.mem.proc q).pid = pid)
    let s ← critical h (.proc q) (killOne pid q) s
    pure (s.goThread p (.at (if found then .user else .kill pid (i + 1))))
  else pure (s.goThread p (.at .user))

/-- `mem` tells whether the allocations of `allocproc` and `uvmcopy` succeed. -/
def forkAllocStep (h : H) (p : Slot) (i : ℕ) (mem : Bool) (s : State H) :
    Outcome Failure (State H) :=
  if hi : i < NPROC then
    let q : Slot := ⟨i, hi⟩
    if (s.mem.proc q).state = .unused then
      if mem then do
        let s ← critical h (.proc q) (allocOne p q) s
        pure ((s.goThread q (.resume .forkret)).goThread p (.at (.forkParent q)))
      else do
        let s ← critical h (.proc q) (allocFail p q) s
        pure (s.goThread p (.at .user))
    else do
      let s ← critical h (.proc q) id s
      pure (s.goThread p (.at (.forkAlloc (i + 1))))
  else pure (s.goThread p (.at .user))

def exitReparentStep (p : Slot) (status : ℤ) (i : ℕ) (s : State H) :
    Outcome Failure (State H) :=
  if hi : i < NPROC then
    let q : Slot := ⟨i, hi⟩
    if (s.mem.proc q).parent = some p then
      let s := s.setMem fun m => m.set q fun x => { x with parent := some initproc }
      pure (s.goThread p (.at (.wakeup (.proc initproc) 0 (.reparent status (i + 1)))))
    else pure (s.goThread p (.at (.exitReparent status (i + 1))))
  else
    let chan := match (s.mem.proc p).parent with
      | none => Chan.null
      | some q => .proc q
    pure (s.goThread p (.at (.wakeup chan 0 (.exit status))))

def exitLastStep (h : H) (p : Slot) (status : ℤ) (s : State H) : Outcome Failure (State H) := do
  let s ← acquire h (.proc p) s
  let s := s.setMem fun m => m.set p fun x => { x with xstate := status, state := .zombie }
  let s ← release h .wait s
  pure (s.goThread p (.sched .exit))

/-- `wait` and `waitx`, from the end of the scan on: `killed(p)` takes the lock of `p`, `waitx`
reads `p->killed` without it. -/
def waitEnd (h : H) (p : Slot) (x havekids : Bool) (s : State H) : Outcome Failure (State H) := do
  let killed := (s.mem.proc p).killed
  let s ← if havekids && !x then critical h (.proc p) id s else pure s
  if !havekids || killed then do
    let s ← release h .wait s
    pure (s.goThread p (.at .user))
  else pure (s.goThread p (.at (.waitSleep x)))

/-- `copy` tells whether the `copyout` of the exit status succeeds. -/
def waitScanStep (h : H) (p : Slot) (x : Bool) (i : ℕ) (havekids copy : Bool) (s : State H) :
    Outcome Failure (State H) :=
  if hi : i < NPROC then
    let q : Slot := ⟨i, hi⟩
    if (s.mem.proc q).parent = some p then
      if (s.mem.proc q).state = .zombie then do
        let s ← critical h (.proc q) (if copy then freeproc q else id) s
        let s ← release h .wait s
        pure (s.goThread p (.at .user))
      else do
        let s ← critical h (.proc q) id s
        pure (s.goThread p (.at (.waitScan x (i + 1) true)))
    else pure (s.goThread p (.at (.waitScan x (i + 1) havekids)))
  else waitEnd h p x havekids s

/-- The queue the timer path puts a process into when it has used up its time. -/
def demoted (pos : ℕ) (ret : Pc) : ℕ :=
  if ret = .user then (if pos ≤ 3 then pos + 1 else 4) else (if pos ≠ 4 then pos + 1 else 4)

def tickStep (p : Slot) (i : ℕ) (ret : Pc) (s : State H) : Outcome Failure (State H) :=
  let pos := (s.mem.proc p).queuePosition
  let next :=
    if i < pos then
      if s.mem.queue.size i ≠ 0 then .tickPush false (.tick (i + 1) ret) else .tick (i + 1) ret
    else if (s.mem.proc p).ticksUsed ≥ maxTicks pos then .tickPush true ret
    else ret
  pure (s.goThread p (.at next))

def tickPushStep (p : Slot) (demote : Bool) (ret : Pc) (s : State H) :
    Outcome Failure (State H) := do
  let pos := (s.mem.proc p).queuePosition
  let m ← pushQueue p (if demote then demoted pos ret else pos)
    (s.mem.set p fun x => { x with ticksUsed := 0 })
  pure ((s.setMem fun _ => m).goThread p (.at (.tickYield ret)))

/-- The next step of a thread inside a kernel function; `ok` is the outcome of its memory
allocation or user copy. -/
def pcStep (b : Build) (h : H) (p : Slot) (ok : Bool) (s : State H) :
    Pc → Outcome Failure (State H)
  | .user | .locked _ => .blocked
  | .wakeup chan i ret => wakeupStep h p chan i ret s
  | .kill pid i => killStep h p pid i s
  | .forkAlloc i => forkAllocStep h p i ok s
  | .forkParent np => do
    let s ← critical h .wait (fun m => m.set np fun x => { x with parent := some p }) s
    pure (s.goThread p (.at (.forkReady np)))
  | .forkReady np => do
    let s ← critical h (.proc np) (fun m => m.setState np .runnable) s
    pure (s.goThread p (.at .user))
  | .exitReparent status i => exitReparentStep p status i s
  | .exitLast status => exitLastStep h p status s
  | .waitScan x i havekids => waitScanStep h p x i havekids ok s
  | .waitSleep x => sleepStep h p (.proc p) .wait (.relockWait x) s
  | .relockOther lk => do
    let s ← acquire h (.other lk) s
    pure (s.goThread p (.at (.locked lk)))
  | .relockWait x => do
    let s ← acquire h .wait s
    pure (s.goThread p (.at (.waitScan x 0 false)))
  | .tick i ret => if b = .mlfq then tickStep p i ret s else .blocked
  | .tickPush demote ret => if b = .mlfq then tickPushStep p demote ret s else .blocked
  | .tickYield ret => yieldStep h p ret s

inductive Call where
  | yield
  /-- The timer path of MLFQ; `usertrap` calls `yield` before it, `kerneltrap` does not. -/
  | tick
  | lock (lk : ℕ)
  | unlock
  /-- `sleep` on an object; only `wait` and `waitx` sleep on a process. -/
  | sleep (obj : ℕ)
  | wakeup (chan : Chan)
  | kill (pid : ℕ)
  | fork
  | exit (status : ℤ)
  | wait
  | waitx
  /-- `setkilled(p)`, for an unexpected trap. -/
  | setkilled
  | settickets (n : ℤ)
  /-- The write of `set_static_priority`, to any slot. -/
  | setPriority (q : Slot) (priority : ℤ)

def changePriority (priority : ℤ) (p : Slot) (m : Mem) : Mem :=
  m.set p fun x => { x with niceness := 5, rtime := 0, stime := 0, staticPriority := priority }

/-- A timer interrupt of user code yields in every build; one of kernel code only in RR. -/
def mayYield (b : Build) (pc : Pc) : Bool :=
  pc = .user || (b = .rr && pc.interruptible)

def waitCall (h : H) (p : Slot) (pc : Pc) (x : Bool) (s : State H) : Outcome Failure (State H) :=
  if pc = .user then do
    let s ← acquire h .wait s
    pure (s.goThread p (.at (.waitScan x 0 false)))
  else .blocked

def callStep (b : Build) (h : H) (p : Slot) (pc : Pc) (s : State H) :
    Call → Outcome Failure (State H)
  | .yield => if mayYield b pc then yieldStep h p pc s else .blocked
  | .tick =>
    if b = .mlfq ∧ pc.interruptible ∧ (s.mem.proc p).state = .running then
      pure ((s.setMem fun m => m.set p fun x => { x with ticksUsed := x.ticksUsed + 1 }).goThread p
        (.at (.tick 0 pc)))
    else .blocked
  | .lock lk =>
    if pc = .user then do
      let s ← acquire h (.other lk) s
      pure (s.goThread p (.at (.locked lk)))
    else .blocked
  | .unlock =>
    match pc with
    | .locked lk => do
      let s ← release h (.other lk) s
      pure (s.goThread p (.at .user))
    | _ => .blocked
  | .sleep obj =>
    match pc with
    | .locked lk => sleepStep h p (.obj obj) (.other lk) (.relockOther lk) s
    | _ => .blocked
  | .wakeup chan =>
    match pc with
    | .user => pure (s.goThread p (.at (.wakeup chan 0 .user)))
    | .locked lk => pure (s.goThread p (.at (.wakeup chan 0 (.locked lk))))
    | _ => .blocked
  | .kill pid => if pc = .user then pure (s.goThread p (.at (.kill pid 0))) else .blocked
  | .fork => if pc = .user then pure (s.goThread p (.at (.forkAlloc 0))) else .blocked
  | .exit status =>
    if pc = .user then
      if p = initproc then .fail (.panic "init exiting")
      else do
        let s ← acquire h .wait s
        pure (s.goThread p (.at (.exitReparent status 0)))
    else .blocked
  | .wait => waitCall h p pc false s
  | .waitx => waitCall h p pc true s
  | .setkilled =>
    if pc = .user then do
      let s ← critical h (.proc p) (fun m => m.set p fun x => { x with killed := true }) s
      pure (s.goThread p (.at pc))
    else .blocked
  | .settickets n => if pc = .user then pure (s.setMem (sysSettickets p (int n))) else .blocked
  | .setPriority q priority =>
    if pc = .user then pure (s.setMem (changePriority priority q)) else .blocked

/-! ## The system -/

inductive Event (H : Type) where
  /-- The scheduler thread of `h` takes its next step; `r` is what `random()` returns. -/
  | sched (h : H) (r : UInt32)
  | call (h : H) (c : Call)
  | go (h : H) (ok : Bool)
  /-- Interrupt handlers on `h`: one iteration of `wakeup`, `ticks++` of `clockintr`, and one
  iteration of its `update_time`. -/
  | intrWakeup (h : H) (chan : Chan) (q : Slot)
  | intrTicks (h : H)
  | intrTime (h : H) (q : Slot)
  /-- `intr_on`, `intr_off`, and the effect of traps on the interrupt-enable bit. -/
  | setIntr (h : H) (on : Bool)

def Event.hart {H : Type} : Event H → H
  | sched h _ | call h _ | go h _ | intrWakeup h _ _ | intrTicks h | intrTime h _ | setIntr h _ => h

def step (b : Build) (s : State H) : Event H → Outcome Failure (State H)
  | .sched h r => if s.run h = none then schedStep h r s else .blocked
  | .call h c =>
    match s.run h with
    | none => .blocked
    | some p =>
      match s.thread p with
      | .at pc => callStep b h p pc s c
      | _ => .blocked
  | .go h ok =>
    match s.run h with
    | none => .blocked
    | some p =>
      match s.thread p with
      | .at pc => pcStep b h p ok s pc
      | .sched ret => schedCall h p ret s
      | .resume ret => resumeStep h p s ret
      | .absent => .blocked
  | .intrWakeup h chan q =>
    if (s.cpu h).intr ∧ (s.cpu h).proc ≠ some q then critical h (.proc q) (wakeOne chan q) s
    else .blocked
  | .intrTicks h => if (s.cpu h).intr then pure (s.setMem Mem.tick) else .blocked
  | .intrTime h q => if (s.cpu h).intr then critical h (.proc q) (updateTime q) s else .blocked
  | .setIntr h on =>
    if (s.cpu h).noff = 0 then pure (s.setCpu h { s.cpu h with intr := on }) else .blocked

end

def Build.start : Build → Loc
  | rr => .rr 0
  | fcfs => .fcfs 0 initproc false (-1)
  | mlfq => .age 0
  | pbs => .pbs 0 none 0
  | lbs => .lbs 0

/-- The shared data after `userinit`: the first process is `RUNNABLE`, nothing is queued. -/
def bootMem : Mem where
  proc := update (fun _ => Proc.zero) initproc { Proc.zero with
    state := .runnable, pid := 1, trapframe := true, pagetable := true
    staticPriority := 60, niceness := 5, tickets := 1 }
  nextpid := 2
  ticks := 0
  queue := ⟨fun _ _ => none, fun _ => 0, fun _ => 0⟩

def boot (b : Build) (H : Type) : State H where
  mem := bootMem
  locks := fun _ => none
  cpu := fun _ => { proc := none, noff := 0, intena := false, intr := true }
  run := fun _ => none
  spc := fun _ => .loop b.start
  thread := update (fun _ => .absent) initproc (.resume .forkret)
  intena := fun _ => false

def sys (b : Build) (H : Type) [DecidableEq H] : TransSys (State H) (Event H) where
  init := fun s => s = boot b H
  step := fun s e s' => step b s e = .ok s'

end Xv6.Sched
