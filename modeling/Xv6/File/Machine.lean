import Xv6.File.Table
import Xv6.Lib.RefPool
import Xv6.Lib.TransSys

/-! # The calls that create and drop references to open files

`open`, `pipe`, `dup`, `close`, `fork` and `exit` of all processes, interleaved. A step is what a
process does under one lock (`ftable.lock`, the lock of a pipe, `kmem.lock`) with the accesses to
its own `ofile` array around it. What `namei` and `create` find, whether `allocproc` and `uvmcopy`
succeed and whether `copyout` does is left to the events; `iput` is a step that changes no file.

A page that holds a pipe is known by its two open flags. An access to a pipe whose page has been
freed is a fault. The other pages are used by the rest of the kernel, which takes pages and gives
back its own ones at any time: `rest` is the record of its uses. The other ghost fields count, for
each page, how often `pipealloc` took it and how often `pipeclose` freed it.
-/

namespace Xv6.File
set_option autoImplicit false
open Function (update)
open Vm RefPool

structure Ends where
  readopen : Bool
  writeopen : Bool
  deriving DecidableEq

def Ends.isOpen (e : Ends) (writable : Bool) : Bool := if writable then e.writeopen else e.readopen

def Ends.close (e : Ends) (writable : Bool) : Ends :=
  if writable then { e with writeopen := false } else { e with readopen := false }

/-- What `sys_open` knows of the inode it has found: `device` is the major number of a device. -/
structure Opened where
  ip : InodeId
  device : Option ℤ
  omode : ℕ

/-! ## Program counters -/

/-- Where `fileclose` returns to: the call returns, another `fileclose` follows, or it is the loop
of `exit` at `fd`. -/
inductive Ret where
  | done
  | close (f : FileId)
  | exit (fd : Fd)

inductive Pc where
  | user
  | dup (fd : Fd) (f : FileId)
  /-- `fileclose`: before the section under `ftable.lock`, and after it. -/
  | fileclose (f : FileId) (ret : Ret)
  | pipeclose (pi : Ppn) (writable : Bool) (ret : Ret)
  | kfree (pi : Ppn) (ret : Ret)
  | iput (ip : InodeId) (ret : Ret)
  | pipeFirst
  | pipeSecond (f0 : FileId)
  | pipePage (f0 f1 : FileId)
  | pipeFds (rf wf : FileId)
  | pipeCopyout (rf wf : FileId) (fd0 fd1 : Fd)
  | openFile (o : Opened)
  | openFd (f : FileId) (o : Opened)
  | fork (np : Proc) (i : ℕ)
  | exit (fd : ℕ)
  | exitClear (fd : Fd)

def Ret.next : Ret → Pc
  | done => .user
  | close f => .fileclose f .done
  | exit fd => .exitClear fd

/-! ## The state -/

inductive Status where
  | unused
  | used
  | alive
  | zombie
  deriving DecidableEq

structure State where
  file : Table
  pipe : Ppn → Option Ends
  kmem : Kmem
  ofile : Proc → Ofile
  status : Proc → Status
  pc : Proc → Pc
  -- ghost data
  rest : Multiset (Share Ppn)
  allocs : Ppn → ℕ
  frees : Ppn → ℕ

namespace State
variable (s : State) (p : Proc)

def go (pc : Pc) : State := { s with pc := update s.pc p pc }

def setOfile (o : Ofile) : State := { s with ofile := update s.ofile p o }

def setFile (f : FileId) (x : File) : State := { s with file := update s.file f x }

def setPipe (pi : Ppn) (e : Option Ends) : State := { s with pipe := update s.pipe pi e }

end State

/-! ## The functions -/

/-- After `fileclose` has dropped the last reference: what the copy `ff` of the file asks for. -/
def afterClose (ff : File) (ret : Ret) : Pc :=
  match ff.type with
  | .pipe => .pipeclose ff.pipe ff.writable ret
  | .inode | .device => .iput ff.ip ret
  | .none => ret.next

def pipeInit (f0 f1 : FileId) (pi : Ppn) (s : State) : State :=
  let s := s.setPipe pi (some ⟨true, true⟩)
  let s := s.setFile f0
    { s.file f0 with type := .pipe, readable := true, writable := false, pipe := pi }
  let s := s.setFile f1
    { s.file f1 with type := .pipe, readable := false, writable := true, pipe := pi }
  { s with allocs := update s.allocs pi (s.allocs pi + 1) }

def openInit (o : Opened) (x : File) : File :=
  let x := match o.device with
    | some major => { x with type := .device, major := major }
    | none => { x with type := .inode, off := 0 }
  { x with
    ip := o.ip
    readable := !o.omode.testBit 0
    writable := o.omode.testBit 0 || o.omode.testBit 1 }

/-- The next step of `p` inside the kernel; `copyout` is whether `copyout` succeeds. -/
def pcStep (R : Ram) (copyout : Bool) (p : Proc) (s : State) : Pc → Outcome Failure State
  | .user => .blocked
  | .dup _ f => do
    let t ← filedup f s.file
    return { s with file := t }.go p .user
  | .fileclose f ret => do
    let (ff, t) ← File.fileclose f s.file
    match ff with
    | none => return { s with file := t }.go p ret.next
    | some ff => return { s with file := t }.go p (afterClose ff ret)
  | .pipeclose pi writable ret =>
    match s.pipe pi with
    | none => .fail .fault
    | some e =>
      let e := e.close writable
      .ok ((s.setPipe pi (some e)).go p
        (if e.readopen = false ∧ e.writeopen = false then .kfree pi ret else ret.next))
  | .kfree pi ret => do
    let k ← Kmem.kfree R pi s.kmem
    return { s.setPipe pi none with
      kmem := k
      frees := update s.frees pi (s.frees pi + 1) }.go p ret.next
  | .iput _ ret => .ok (s.go p ret.next)
  | .pipeFirst =>
    match filealloc s.file with
    | none => .ok (s.go p .user)
    | some (f0, t) => .ok ({ s with file := t }.go p (.pipeSecond f0))
  | .pipeSecond f0 =>
    match filealloc s.file with
    | none => .ok (s.go p (.fileclose f0 .done))
    | some (f1, t) => .ok ({ s with file := t }.go p (.pipePage f0 f1))
  | .pipePage f0 f1 =>
    match s.kmem.kalloc with
    | (none, k) => .ok ({ s with kmem := k }.go p (.fileclose f0 (.close f1)))
    | (some pi, k) => .ok ((pipeInit f0 f1 pi { s with kmem := k }).go p (.pipeFds f0 f1))
  | .pipeFds rf wf =>
    match fdalloc (s.ofile p) rf with
    | none => .ok (s.go p (.fileclose rf (.close wf)))
    | some (fd0, o) =>
      match fdalloc o wf with
      | none =>
        .ok ((s.setOfile p (update o fd0 none)).go p (.fileclose rf (.close wf)))
      | some (fd1, o) => .ok ((s.setOfile p o).go p (.pipeCopyout rf wf fd0 fd1))
  | .pipeCopyout rf wf fd0 fd1 =>
    if copyout then .ok (s.go p .user)
    else
      .ok ((s.setOfile p (update (update (s.ofile p) fd0 none) fd1 none)).go p
        (.fileclose rf (.close wf)))
  | .openFile o =>
    match filealloc s.file with
    | none => .ok (s.go p .user)
    | some (f, t) => .ok ({ s with file := t }.go p (.openFd f o))
  | .openFd f o =>
    match fdalloc (s.ofile p) f with
    | none => .ok (s.go p (.fileclose f .done))
    | some (_, t) => .ok (((s.setOfile p t).setFile f (openInit o (s.file f))).go p .user)
  | .fork np i =>
    if h : i < NOFILE then
      match s.ofile p ⟨i, h⟩ with
      | none => .ok (s.go p (.fork np (i + 1)))
      | some f => do
        let t ← filedup f s.file
        return ({ s with file := t }.setOfile np
          (update (s.ofile np) ⟨i, h⟩ (some f))).go p (.fork np (i + 1))
    else .ok ({ s with status := update s.status np .alive }.go p .user)
  | .exit fd =>
    if h : fd < NOFILE then
      match s.ofile p ⟨fd, h⟩ with
      | none => .ok (s.go p (.exit (fd + 1)))
      | some f => .ok (s.go p (.fileclose f (.exit ⟨fd, h⟩)))
    else .ok ({ s with status := update s.status p .zombie }.go p .user)
  | .exitClear fd =>
    .ok ((s.setOfile p (update (s.ofile p) fd none)).go p (.exit (fd + 1)))

/-! ## The system -/

inductive Event where
  /-- `open`, with the inode if `namei` or `create` finds one. -/
  | open (p : Proc) (o : Option Opened)
  | pipe (p : Proc)
  | dup (p : Proc) (fd : ℤ)
  | close (p : Proc) (fd : ℤ)
  /-- `fork`, with the process if `allocproc` and `uvmcopy` succeed. -/
  | fork (p : Proc) (np : Option Proc)
  | exit (p : Proc)
  | reap (p : Proc)
  | go (p : Proc) (copyout : Bool)
  | restAlloc (sole : Bool)
  | restDup (pg : Ppn)
  | restFree (x : Share Ppn)

def initproc : Proc := ⟨0, NPROC_pos⟩

def enter (p : Proc) (s : State) (k : Outcome Failure State) : Outcome Failure State :=
  match s.status p, s.pc p with
  | .alive, .user => k
  | _, _ => .blocked

def step (R : Ram) (s : State) : Event → Outcome Failure State
  | .open p o => enter p s <|
    match o with
    | none => .ok s
    | some o =>
      match o.device with
      | some major =>
        if major < 0 ∨ (NDEV : ℤ) ≤ major then .ok s else .ok (s.go p (.openFile o))
      | none => .ok (s.go p (.openFile o))
  | .pipe p => enter p s (.ok (s.go p .pipeFirst))
  | .dup p fd => enter p s <|
    match argfd (s.ofile p) fd with
    | none => .ok s
    | some (_, f) =>
      match fdalloc (s.ofile p) f with
      | none => .ok s
      | some (fd, o) => .ok ((s.setOfile p o).go p (.dup fd f))
  | .close p fd => enter p s <|
    match argfd (s.ofile p) fd with
    | none => .ok s
    | some (fd, f) =>
      .ok ((s.setOfile p (update (s.ofile p) fd none)).go p (.fileclose f .done))
  | .fork p np => enter p s <|
    match np with
    | none => .ok s
    | some np =>
      if s.status np = .unused then
        .ok ({ s with status := update s.status np .used }.go p (.fork np 0))
      else .blocked
  | .exit p => enter p s <|
    if p = initproc then .fail (.panic "init exiting") else .ok (s.go p (.exit 0))
  | .reap p =>
    if s.status p = .zombie then .ok { s with status := update s.status p .unused }
    else .blocked
  | .go p copyout => pcStep R copyout p s (s.pc p)
  | .restAlloc sole =>
    match s.kmem.kalloc with
    | (none, k) => .ok { s with kmem := k }
    | (some pg, k) =>
      .ok { s with kmem := k, rest := (if sole then .sole pg else .shared pg) ::ₘ s.rest }
  | .restDup pg =>
    if .shared pg ∈ s.rest then
      .ok { s with kmem := s.kmem.refInc pg, rest := .shared pg ::ₘ s.rest }
    else .blocked
  | .restFree x =>
    if x ∈ s.rest then do
      let k ← Kmem.kfree R x.page s.kmem
      return { s with kmem := k, rest := s.rest.erase x }
    else .blocked

/-- Only the first process is there; no file is open, and the pages in use are those of the rest of
the kernel. -/
def Boot (R : Ram) (s : State) : Prop :=
  (∀ f, (s.file f).ref = 0 ∧ (s.file f).type = .none) ∧ (∀ pg, s.pipe pg = none) ∧
    (∀ p fd, s.ofile p fd = none) ∧
    (s.status = update (fun _ => .unused) initproc .alive) ∧ (∀ p, s.pc p = .user) ∧
    Exact R.Allocatable s.kmem.refCount s.kmem.freelist s.rest ∧ s.allocs = s.frees

def sys (R : Ram) : TransSys State Event where
  init := Boot R
  step := fun s e s' => step R s e = .ok s'

end Xv6.File
