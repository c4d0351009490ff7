import Mathlib.Data.Fintype.Basic
import Xv6.Lib.RingBuf
import Xv6.Lib.TransSys
import Xv6.Param

/-! # Pipes

`pipewrite`, `piperead` and `pipeclose` of `kernel/pipe.c` on one pipe, called by any processes that
have a descriptor for it. A step is what a process does between two places where others may look:
one test or one byte of a loop, one iteration of `wakeup`, the release of `pi->lock` by `sleep` or
at the end of a call. In `sleep` a process holds its own `p->lock` from before it lets go of
`pi->lock` until it is `SLEEPING`, and `wakeup` and `kill` wait for that lock. The state also keeps,
as ghost data, the history of the calls.
-/

namespace Xv6
set_option autoImplicit false
open Function (update update_self update_of_ne)

def PIPESIZE : ℕ := 512

instance : NeZero PIPESIZE := ⟨by decide⟩

structure Pipe where
  data : Fin PIPESIZE → UInt8
  nread : BitVec 32
  nwrite : BitVec 32
  readopen : Bool
  writeopen : Bool

namespace Pipe

def ring (pi : Pipe) : RingBuf 32 PIPESIZE UInt8 := ⟨pi.data, pi.nread, pi.nwrite⟩

inductive Chan where
  | nread
  | nwrite
  deriving DecidableEq

/-! ## Program counters -/

/-- The local variables of `pipewrite`: `n`, the bytes at `addr`, `i`, and the value `i` had when
the readers were last woken. -/
structure Write where
  n : ℤ
  src : ℕ → UInt8
  i : ℕ
  woke : ℕ

inductive WakeRet where
  | writeSleep (w : Write)
  | writeDone (i : ℕ)
  | readDone (i : ℕ)
  | closed

inductive Pc where
  | user
  /-- `pipewrite` at the head of its loop, and after its first test. -/
  | writeHead (w : Write)
  | writeBody (w : Write)
  /-- `piperead` at the head of its first loop, about to sleep, and in its second loop. -/
  | readHead (n : ℤ)
  | readSleep (n : ℤ)
  | readLoop (n : ℤ) (i : ℕ)
  | wakeup (chan : Chan) (k : ℕ) (ret : WakeRet)
  | sleepWrite (w : Write)
  | sleepRead (n : ℤ)
  | relockWrite (w : Write)
  | relockRead (n : ℤ)
  /-- `fileclose` has dropped the last reference to an end and calls `pipeclose`. -/
  | closing (writable : Bool)

/-- `pi->lock` is held at this place. -/
def Pc.locked : Pc → Bool
  | user | sleepWrite _ | sleepRead _ | relockWrite _ | relockRead _ | closing _ => false
  | writeHead _ | writeBody _ | readHead _ | readSleep _ | readLoop _ _ | wakeup _ _ _ => true

/-- `p->lock` is held by `p` itself at this place. -/
def Pc.dozing : Pc → Bool
  | sleepWrite _ | sleepRead _ => true
  | _ => false

def Pc.isUser : Pc → Bool
  | user => true
  | _ => false

/-! ## The state -/

inductive Kind where
  | write
  | read
  deriving DecidableEq

structure Moved where
  who : Proc
  call : ℕ
  byte : UInt8
  deriving DecidableEq

structure Returned where
  who : Proc
  call : ℕ
  kind : Kind
  value : ℤ

/-- The history of the calls: how many each process has begun, the bytes that each write was given,
those the writes have accepted and the reads have delivered, and the values returned. -/
structure Trace where
  calls : Proc → ℕ
  src : Proc → ℕ → ℕ → UInt8
  moved : Kind → List Moved
  returned : List Returned

namespace Trace
variable (t : Trace) (p : Proc)

def start : Trace := { t with calls := update t.calls p (t.calls p + 1) }

/-- The next call of `p` is a write of the bytes `src`. -/
def offer (src : ℕ → UInt8) : Trace :=
  { t with src := update t.src p (update (t.src p) (t.calls p + 1) src) }

def move (kind : Kind) (ch : UInt8) : Trace :=
  { t with moved := update t.moved kind (t.moved kind ++ [⟨p, t.calls p, ch⟩]) }

def finish (kind : Kind) (value : ℤ) : Trace :=
  { t with returned := t.returned ++ [⟨p, t.calls p, kind, value⟩] }

theorem offer_src_self (src : ℕ → UInt8) : (t.offer p src).src p (t.calls p + 1) = src := by
  show update t.src p _ p _ = src
  rw [update_self, update_self]

theorem offer_src_of_ne {q : Proc} {c : ℕ} (h : ¬ (q = p ∧ c = t.calls p + 1)) (src : ℕ → UInt8) :
    (t.offer p src).src q c = t.src q c := by
  show update t.src p _ q c = _
  by_cases hq : q = p
  · subst hq
    rw [update_self, update_of_ne fun hc => h ⟨rfl, hc⟩]
  · rw [update_of_ne hq]

theorem move_moved_self (kind : Kind) (ch : UInt8) :
    (t.move p kind ch).moved kind = t.moved kind ++ [⟨p, t.calls p, ch⟩] := by
  show update t.moved kind _ kind = _
  rw [update_self]

theorem move_moved_of_ne {k kind : Kind} (h : k ≠ kind) (ch : UInt8) :
    (t.move p kind ch).moved k = t.moved k := by
  show update t.moved kind _ k = _
  rw [update_of_ne h]

end Trace

structure State where
  pipe : Pipe
  lock : Option Proc
  pc : Proc → Pc
  chan : Proc → Option Chan
  killed : Proc → Bool
  /-- The processes with a descriptor for the read end, and for the write end. -/
  reads : Proc → Bool
  writes : Proc → Bool
  freed : Bool
  trace : Trace

namespace State
variable (s : State) (p : Proc)

def go (pc : Pc) : State := { s with pc := update s.pc p pc }

theorem go_pc_self (pc : Pc) : (s.go p pc).pc p = pc := update_self _ _ _

theorem go_pc_of_ne {q : Proc} (hq : q ≠ p) (pc : Pc) : (s.go p pc).pc q = s.pc q :=
  update_of_ne hq _ _

def setPipe (pi : Pipe) : State := { s with pipe := pi }

def release : State := { s with lock := none }

def sleep (chan : Chan) (pc : Pc) : State :=
  { s.go p pc with chan := update s.chan p (some chan) }

def wake (chan : Chan) : State :=
  { s with chan := update s.chan p (if s.chan p = some chan then none else s.chan p) }

def ret (kind : Kind) (value : ℤ) : State :=
  { s.go p .user with lock := none, trace := s.trace.finish p kind value }

/-- `pi->data[pi->nwrite++ % PIPESIZE] = ch;` -/
def put (ch : UInt8) : State :=
  { s with
    pipe := { s.pipe with
      data := update s.pipe.data (RingBuf.cell s.pipe.nwrite) ch
      nwrite := s.pipe.nwrite + 1 }
    trace := s.trace.move p .write ch }

/-- `ch = pi->data[pi->nread++ % PIPESIZE];` -/
def take : State := s.setPipe { s.pipe with nread := s.pipe.nread + 1 }

def head : UInt8 := s.pipe.data (RingBuf.cell s.pipe.nread)

def deliver (ch : UInt8) : State := { s with trace := s.trace.move p .read ch }

def hasFd (writable : Bool) : Bool := if writable then s.writes p else s.reads p

def dropFd : Bool → State
  | true => { s with writes := update s.writes p false }
  | false => { s with reads := update s.reads p false }

end State

/-! ## The functions -/

def writeHeadStep (p : Proc) (w : Write) (s : State) : State :=
  if (w.i : ℤ) < w.n then
    if s.pipe.readopen = false ∨ s.killed p = true then s.ret p .write (-1)
    else s.go p (.writeBody w)
  else s.go p (.wakeup .nread 0 (.writeDone w.i))

/-- `ok` tells whether `copyin` succeeds. -/
def writeBodyStep (p : Proc) (w : Write) (ok : Bool) (s : State) : State :=
  if s.pipe.nwrite = s.pipe.nread + BitVec.ofNat 32 PIPESIZE then
    s.go p (.wakeup .nread 0 (.writeSleep w))
  else if ok then (s.put p (w.src w.i)).go p (.writeHead { w with i := w.i + 1 })
  else s.go p (.wakeup .nread 0 (.writeDone w.i))

def readHeadStep (p : Proc) (n : ℤ) (s : State) : State :=
  if s.pipe.nread = s.pipe.nwrite ∧ s.pipe.writeopen = true then
    if s.killed p = true then s.ret p .read (-1) else s.go p (.readSleep n)
  else s.go p (.readLoop n 0)

/-- `ok` tells whether `copyout` succeeds. -/
def readLoopStep (p : Proc) (n : ℤ) (i : ℕ) (ok : Bool) (s : State) : State :=
  if (i : ℤ) < n ∧ s.pipe.nread ≠ s.pipe.nwrite then
    if ok then (s.take.deliver p s.head).go p (.readLoop n (i + 1))
    else s.take.go p (.wakeup .nwrite 0 (.readDone i))
  else s.go p (.wakeup .nwrite 0 (.readDone i))

def wakeEnd (p : Proc) (s : State) : WakeRet → State
  | .writeSleep w => (s.go p (.sleepWrite { w with woke := w.i })).release
  | .writeDone i => s.ret p .write i
  | .readDone i => s.ret p .read i
  | .closed =>
    { (s.go p .user).release with
      freed := s.freed || (!s.pipe.readopen && !s.pipe.writeopen) }

def wakeupStep (p : Proc) (chan : Chan) (k : ℕ) (ret : WakeRet) (s : State) : Option State :=
  if hk : k < NPROC then
    let q : Proc := ⟨k, hk⟩
    if q = p then some (s.go p (.wakeup chan (k + 1) ret))
    else if (s.pc q).dozing then none
    else some ((s.wake q chan).go p (.wakeup chan (k + 1) ret))
  else some (wakeEnd p s ret)

def acquire (p : Proc) (pc : Pc) (s : State) : Option State :=
  if s.lock = none then some { s.go p pc with lock := some p } else none

def closeStep (p : Proc) (writable : Bool) (s : State) : Option State :=
  if writable then
    acquire p (.wakeup .nread 0 .closed) (s.setPipe { s.pipe with writeopen := false })
  else acquire p (.wakeup .nwrite 0 .closed) (s.setPipe { s.pipe with readopen := false })

/-- The next step of `p` inside the kernel; `ok` is the outcome of a user copy. -/
def pcStep (p : Proc) (ok : Bool) (s : State) : Pc → Option State
  | .user => none
  | .writeHead w => some (writeHeadStep p w s)
  | .writeBody w => some (writeBodyStep p w ok s)
  | .readHead n => some (readHeadStep p n s)
  | .readSleep n => some (s.go p (.sleepRead n)).release
  | .readLoop n i => some (readLoopStep p n i ok s)
  | .wakeup chan k ret => wakeupStep p chan k ret s
  | .sleepWrite w => some (s.sleep p .nwrite (.relockWrite w))
  | .sleepRead n => some (s.sleep p .nread (.relockRead n))
  | .relockWrite w => acquire p (.writeHead w) s
  | .relockRead n => acquire p (.readHead n) s
  | .closing writable => closeStep p writable s

/-! ## The system -/

inductive Event where
  | write (p : Proc) (n : ℤ) (src : ℕ → UInt8)
  | read (p : Proc) (n : ℤ)
  | close (p : Proc) (writable : Bool)
  | fork (p q : Proc)
  | kill (q : Proc)
  | go (p : Proc) (ok : Bool)

def enter (p : Proc) (pc : Pc) (s : State) : Option State :=
  if (s.pc p).isUser then
    acquire p pc { s with trace := s.trace.start p }
  else none

/-- `fileclose`: the last reference to an end closes it. -/
def drop (p : Proc) (writable : Bool) (s : State) : State :=
  let s := s.dropFd p writable
  if ∃ q, s.hasFd q writable = true then s else s.go p (.closing writable)

def step (s : State) : Event → Option State
  | .write p n src =>
    if s.writes p then
      enter p (.writeHead ⟨n, src, 0, 0⟩) { s with trace := s.trace.offer p src }
    else none
  | .read p n => if s.reads p then enter p (.readHead n) s else none
  | .close p writable =>
    if (s.pc p).isUser ∧ s.hasFd p writable = true then
      some (drop p writable s)
    else none
  | .fork p q =>
    if (s.pc p).isUser ∧ (s.pc q).isUser ∧ s.reads q = false ∧ s.writes q = false then
      some { s with
        reads := update s.reads q (s.reads p)
        writes := update s.writes q (s.writes p)
        killed := update s.killed q false }
    else none
  | .kill q =>
    if (s.pc q).dozing then none
    else
      some { s with
        killed := update s.killed q true
        chan := update s.chan q none }
  | .go p ok => if s.chan p = none then pcStep p ok s (s.pc p) else none

/-- A new pipe, as `pipealloc` leaves it, with both ends open in process `p`; the contents of the
page are arbitrary. -/
def fresh (p : Proc) (data : Fin PIPESIZE → UInt8) : State where
  pipe := { data := data, nread := 0, nwrite := 0, readopen := true, writeopen := true }
  lock := none
  pc := fun _ => .user
  chan := fun _ => none
  killed := fun _ => false
  reads := fun q => q = p
  writes := fun q => q = p
  freed := false
  trace := { calls := fun _ => 0, src := fun _ _ _ => 0, moved := fun _ => [], returned := [] }

def sys : TransSys State Event where
  init := fun s => ∃ p data, s = fresh p data
  step := fun s e s' => step s e = some s'

def firstProc : Proc := ⟨0, NPROC_pos⟩

def run (C : State → Event → Prop) [∀ s e, Decidable (C s e)] (es : List Event) : Option State :=
  TransSys.exec (fun s e => if C s e then step s e else none) (fresh firstProc fun _ => 0) es

theorem reachable_of_run {C : State → Event → Prop} [∀ s e, Decidable (C s e)] {es : List Event}
    {s : State} (hs : run C es = some s) : (sys.restrict C).Reachable s :=
  .of_exec (fun _ _ _ h => h) ⟨_, _, rfl⟩ hs

end Pipe

end Xv6
