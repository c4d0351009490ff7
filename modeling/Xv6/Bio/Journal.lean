import Xv6.Bio.Cache
import Xv6.Lib.TransSys
import Xv6.Log.Ops

/-! # The log on top of the buffer cache

The clients of the log call `bread`, modify the data of a buffer they hold, and call `log_write` and
`brelse`; the last `end_op` runs `commit`. All of it works on the `NBUF` buffers of the cache, and
`commit` reads and writes blocks through it like everyone else. A step is what a process does
between two places where others may come in: `bread` is the scan under `bcache.lock`, the wait for
the sleep lock and the disk read, `brelse` is `releasesleep` and the section under `bcache.lock`,
and each copy, each disk write and each loop test of `commit` is a step of its own.

The last fields of the state are a record that no step reads: for each block the data of its last
modification, the buffers modified and neither logged nor written since, the pins, and how many of
the blocks of the log have been unpinned.
-/

namespace Xv6.Bio.Journal
set_option autoImplicit false
open Function (update)

/-- The device of the file system and the place of its log; block numbers have 32 bits. -/
structure Layout where
  dev : ℕ
  start : ℕ
  size : ℕ
  dev_ne : dev ≠ 0
  size_pos : 0 < size
  fits : start + size ≤ 4294967296

def Layout.Home (c : Layout) (m : ℕ) : Prop := m < c.start ∨ c.start + c.size ≤ m

instance (c : Layout) (m : ℕ) : Decidable (c.Home m) := inferInstanceAs (Decidable (_ ∨ _))

/-! ## Program counters -/

/-- Who waits for a `bread`: a client, `write_log` for `to` and for `from`, `write_head`, and
`install_trans` for `lbuf` and for `dbuf`. In `write_head`, `clear` marks the second call. -/
inductive Bread where
  | user
  | logTo (tail : ℕ)
  | logFrom (tail : ℕ) (dst : BufId)
  | head (clear : Bool)
  | instLog (tail : ℕ)
  | instDst (tail : ℕ) (lbuf : BufId)
  deriving DecidableEq

inductive Brelse where
  | user
  | logFrom (tail : ℕ) (dst : BufId)
  | logTo (tail : ℕ)
  | head (clear : Bool)
  | instLog (tail : ℕ) (dbuf : BufId)
  | instDst (tail : ℕ)
  deriving DecidableEq

inductive Pc where
  | user
  /-- In `bread`: before the scan, in `acquiresleep`, and with the lock held. -/
  | bget (m : ℕ) (ret : Bread)
  | waiting (b : BufId) (m : ℕ) (ret : Bread)
  | fill (b : BufId) (m : ℕ) (ret : Bread)
  /-- In `brelse`: before and after `releasesleep`. -/
  | unlock (b : BufId) (ret : Brelse)
  | drop (b : BufId) (ret : Brelse)
  /-- `write_log`: the loop test, `memmove`, `bwrite`. -/
  | writeLog (tail : ℕ)
  | writeLogCopy (tail : ℕ) (dst src : BufId)
  | writeLogWrite (tail : ℕ) (dst src : BufId)
  /-- `write_head`: the assignments to the header, `bwrite`. -/
  | headStore (clear : Bool) (b : BufId)
  | headWrite (clear : Bool) (b : BufId)
  /-- `install_trans`: the loop test, `memmove`, `bwrite`, `bunpin`. -/
  | install (tail : ℕ)
  | installCopy (tail : ℕ) (lbuf dbuf : BufId)
  | installWrite (tail : ℕ) (lbuf dbuf : BufId)
  | installUnpin (tail : ℕ) (lbuf dbuf : BufId)
  | clear
  | endCommit
  deriving DecidableEq

def Pc.ref : Pc → Option BufId
  | waiting b _ _ | drop b _ => some b
  | _ => none

/-! ## The state -/

structure State where
  cache : Cache
  disk : ℕ → ℕ → Block
  lock : BufId → Option Proc
  log : Log
  pc : Proc → Pc
  inOp : Proc → Bool
  -- ghost data
  last : ℕ → Block
  dirty : BufId → Bool
  pins : BufId → ℕ
  unpinned : ℕ

namespace State
variable (s : State) (p : Proc) (b : BufId)

def go (pc : Pc) : State := { s with pc := update s.pc p pc }

def setData (data : Block) : State := { s with cache := s.cache.setData b data }

def modify (data : Block) : State :=
  { s.setData b data with
    last := update s.last (s.cache.buf b).blockno data
    dirty := update s.dirty b true }

def diskWrite : State :=
  let x := s.cache.buf b
  { s with
    disk := update s.disk x.dev (update (s.disk x.dev) x.blockno x.data)
    dirty := update s.dirty b false }

def block (tail : ℕ) : ℕ := s.log.lh.getD tail 0

end State

/-! ## The functions -/

def bwrite (p : Proc) (b : BufId) (s : State) : Outcome Failure State :=
  if s.lock b = some p then .ok (s.diskWrite b) else .fail (.panic "bwrite")

def Bread.next (s : State) (b : BufId) : Bread → Pc
  | user => .user
  | logTo tail => .bget (s.block tail) (.logFrom tail b)
  | logFrom tail dst => .writeLogCopy tail dst b
  | head clear => .headStore clear b
  | instLog tail => .bget (s.block tail) (.instDst tail b)
  | instDst tail lbuf => .installCopy tail lbuf b

def Brelse.next : Brelse → Pc
  | user => .user
  | logFrom tail dst => .unlock dst (.logTo tail)
  | logTo tail => .writeLog (tail + 1)
  | head false => .install 0
  | head true => .endCommit
  | instLog tail dbuf => .unlock dbuf (.instDst tail)
  | instDst tail => .install (tail + 1)

def pcStep (c : Layout) (p : Proc) (s : State) : Pc → Outcome Failure State
  | .user => .blocked
  | .bget m ret => do
    let (b, cache) ← s.cache.bget c.dev m
    return { s with cache := cache }.go p (.waiting b m ret)
  | .waiting b m ret =>
    if s.lock b = none then
      .ok ({ s with lock := update s.lock b (some p) }.go p (.fill b m ret))
    else .blocked
  | .fill b _ ret => .ok ({ s with cache := s.cache.fill s.disk b }.go p (ret.next s b))
  | .unlock b ret =>
    if s.lock b = some p then
      .ok ({ s with lock := update s.lock b none }.go p (.drop b ret))
    else .fail (.panic "brelse")
  | .drop b ret => .ok ({ s with cache := s.cache.brelse b }.go p ret.next)
  | .writeLog tail =>
    if tail < s.log.lh.length then .ok (s.go p (.bget (c.start + tail + 1) (.logTo tail)))
    else .ok (s.go p (.bget c.start (.head false)))
  | .writeLogCopy tail dst src =>
    .ok ((s.modify dst (s.cache.buf src).data).go p (.writeLogWrite tail dst src))
  | .writeLogWrite tail dst src => do
    let s ← bwrite p dst s
    return s.go p (.unlock src (.logFrom tail dst))
  | .headStore clear b =>
    .ok ((s.modify b (writeHead (s.cache.buf b).data s.log.lh)).go p (.headWrite clear b))
  | .headWrite clear b => do
    let s ← bwrite p b s
    return s.go p (.unlock b (.head clear))
  | .install tail =>
    if tail < s.log.lh.length then .ok (s.go p (.bget (c.start + tail + 1) (.instLog tail)))
    else .ok (s.go p .clear)
  | .installCopy tail lbuf dbuf =>
    .ok ((s.setData dbuf (s.cache.buf lbuf).data).go p (.installWrite tail lbuf dbuf))
  | .installWrite tail lbuf dbuf => do
    let s ← bwrite p dbuf s
    return s.go p (.installUnpin tail lbuf dbuf)
  | .installUnpin tail lbuf dbuf =>
    .ok ({ s with
      cache := s.cache.bunpin dbuf
      pins := update s.pins dbuf (s.pins dbuf - 1)
      unpinned := s.unpinned + 1 }.go p (.unlock lbuf (.instLog tail dbuf)))
  | .clear =>
    .ok ({ s with log := s.log.clear, unpinned := 0 }.go p (.bget c.start (.head true)))
  | .endCommit => .ok ({ s with log := s.log.endCommit }.go p .user)

def logWrite (b : BufId) (s : State) : Outcome Failure State :=
  match s.log.logWrite (s.cache.buf b).blockno with
  | .error msg => .fail (.panic msg)
  | .ok (l, false) => .ok { s with log := l, dirty := update s.dirty b false }
  | .ok (l, true) =>
    .ok { s with
      log := l
      dirty := update s.dirty b false
      cache := s.cache.bpin b
      pins := update s.pins b (s.pins b + 1) }

def endOp (p : Proc) (s : State) : Outcome Failure State :=
  match s.log.endOp with
  | .error msg => .fail (.panic msg)
  | .ok (l, false) => .ok { s with log := l, inOp := update s.inOp p false }
  | .ok (l, true) =>
    .ok ({ s with log := l, inOp := update s.inOp p false }.go p
      (if 0 < l.lh.length then .writeLog 0 else .endCommit))

/-! ## The system -/

inductive Event where
  | beginOp (p : Proc)
  | endOp (p : Proc)
  | bread (p : Proc) (m : ℕ)
  | modify (p : Proc) (b : BufId) (data : Block)
  | logWrite (p : Proc) (b : BufId)
  | brelse (p : Proc) (b : BufId)
  | go (p : Proc)

def Pc.isUser : Pc → Bool
  | user => true
  | _ => false

def Event.proc : Event → Proc
  | beginOp p | endOp p | bread p _ | modify p _ _ | logWrite p _ | brelse p _ | go p => p

/-- What a process does outside the functions of the cache and the log. -/
def userStep (s : State) : Event → Outcome Failure State
  | .beginOp p =>
    if s.inOp p then .blocked
    else
      match s.log.beginOp with
      | none => .blocked
      | some l => .ok { s with log := l, inOp := update s.inOp p true }
  | .endOp p => if s.inOp p then endOp p s else .blocked
  | .bread p m => .ok (s.go p (.bget m .user))
  | .modify _ b data => .ok (s.modify b data)
  | .logWrite _ b => logWrite b s
  | .brelse p b => .ok (s.go p (.unlock b .user))
  | .go _ => .blocked

def step (c : Layout) (s : State) (e : Event) : Outcome Failure State :=
  match e with
  | .go p => pcStep c p s (s.pc p)
  | e => if (s.pc e.proc).isUser then userStep s e else .blocked

/-- A modification is made in an operation, by the holder of the buffer of a home block, and
followed by `log_write` before `brelse`. -/
def Proper (c : Layout) (s : State) : Event → Prop
  | .modify p b _ => s.inOp p = true ∧ s.lock b = some p ∧ c.Home (s.cache.buf b).blockno
  | .logWrite p b => s.lock b = some p ∧ c.Home (s.cache.buf b).blockno
  | .brelse _ b => s.dirty b = false
  | .bread _ m => m < 4294967296
  | .beginOp _ | .endOp _ | .go _ => True

def boot (c : Layout) (k : Links BufId) (zero : Block) (disk : ℕ → ℕ → Block) : State where
  cache := .binit k zero
  disk := disk
  lock := fun _ => none
  log := .init c.size
  pc := fun _ => .user
  inOp := fun _ => false
  last := disk c.dev
  dirty := fun _ => false
  pins := fun _ => 0
  unpinned := 0

def sys (c : Layout) : TransSys State Event where
  init := fun s => ∃ k zero disk, s = boot c k zero disk
  step := fun s e s' => step c s e = .ok s'

end Xv6.Bio.Journal
