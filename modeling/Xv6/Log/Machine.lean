import Xv6.Lib.TransSys
import Xv6.Log.Ops

/-! # The log on a disk that can lose power

File-system operations, the commit of `end_op` and the recovery of `initlog` as one machine whose
steps contain at most one disk write each, so that a crash between any two disk writes is a crash
between two steps. Disk writes are atomic per block and reach the disk in program order.

The buffer cache is the map of its valid buffers. A buffer may be read in or evicted at any time as
long as it is not pinned; `bwrite` writes through. The last fields of the state are a record of what
happened and are read by no step: the operations' writes, the commit groups they were collected
into, how many of the groups are on the disk and how many calls of `commit` have returned.
-/

namespace Xv6.CrashLog
open Xv6
set_option autoImplicit false
open Function (update update_of_ne)

/-! ## The machine -/

/-- Where the superblock puts the log: block `start` is the header, the data blocks follow. -/
structure Layout where
  start : ℕ
  size : ℕ
  size_pos : 0 < size

def Layout.Home (c : Layout) (b : ℕ) : Prop := b < c.start ∨ c.start + c.size ≤ b

instance (c : Layout) (b : ℕ) : Decidable (c.Home b) := inferInstanceAs (Decidable (_ ∨ _))

structure Write where
  op : ℕ
  block : ℕ
  data : Block

/-- What the thread in `commit`, or in `recover_from_log`, does next. -/
inductive Pc where
  | running
  | writeLog (tail : ℕ)
  | writeHead
  | install (tail : ℕ)
  | clearHead
  | committed
  | recRead
  | recInstall (tail : ℕ)
  | recClear
  deriving DecidableEq, Repr

def Pc.recovering : Pc → Bool
  | .recRead | .recInstall _ | .recClear => true
  | _ => false

structure State where
  disk : ℕ → Block
  cache : ℕ → Option Block
  pins : ℕ → ℕ
  log : Log
  pc : Pc
  nextOp : ℕ
  active : List ℕ
  hist : ℕ → List Write
  cur : List Write
  groups : List (List Write)
  ncommitted : ℕ
  nreturned : ℕ

namespace State

def bread (s : State) (b : ℕ) : Block := (s.cache b).getD (s.disk b)

def fetch (s : State) (b : ℕ) : State := { s with cache := update s.cache b (some (s.bread b)) }

def modify (s : State) (b : ℕ) (data : Block) : State :=
  { s with cache := update s.cache b (some data) }

def bwrite (s : State) (b : ℕ) (data : Block) : State :=
  { s with disk := update s.disk b data, cache := update s.cache b (some data) }

end State

def bpin (pins : ℕ → ℕ) (b : ℕ) : ℕ → ℕ := update pins b (pins b + 1)

def bunpin (pins : ℕ → ℕ) (b : ℕ) : ℕ → ℕ := update pins b (pins b - 1)

def boot (c : Layout) (disk : ℕ → Block) : State where
  disk := disk
  cache := fun _ => none
  pins := fun _ => 0
  log := Log.init c.size
  pc := .running
  nextOp := 0
  active := []
  hist := fun _ => []
  cur := []
  groups := []
  ncommitted := 0
  nreturned := 0

inductive Event where
  | beginOp
  | logWrite (i b : ℕ) (data : Block)
  | endOp (i : ℕ)
  | bread (b : ℕ)
  | evict (b : ℕ)
  | advance
  | crash

def beginOp (s : State) : Option State :=
  if s.pc.recovering then none
  else s.log.beginOp.map fun l =>
    { s with log := l, active := s.nextOp :: s.active, nextOp := s.nextOp + 1 }

theorem beginOp_eq_some {s s' : State} (h : beginOp s = some s') :
    s.pc.recovering = false ∧ s.log.committing = false ∧
      s' = { s with
        log := { s.log with outstanding := s.log.outstanding + 1 }
        active := s.nextOp :: s.active
        nextOp := s.nextOp + 1 } := by
  unfold beginOp at h
  split at h
  · cases h
  · next hr =>
    obtain ⟨l, hl, rfl⟩ := Option.map_eq_some_iff.mp h
    obtain ⟨hc, -, rfl⟩ := Log.beginOp_eq_some hl
    exact ⟨by simpa using hr, hc, rfl⟩

def logWrite (c : Layout) (s : State) (i b : ℕ) (data : Block) : Option State :=
  if i ∈ s.active ∧ c.Home b ∧ b < 4294967296 then
    match s.log.logWrite b with
    | .error _ => none
    | .ok (l, new) =>
      let s := (s.fetch b).modify b data
      some { s with
        log := l
        pins := if new then bpin s.pins b else s.pins
        hist := update s.hist i (s.hist i ++ [⟨i, b, data⟩])
        cur := s.cur ++ [⟨i, b, data⟩] }
  else none

/-- `end_op` of operation `i`. The last operation out closes the commit group and goes on to
`commit`, which has nothing to do when no block was logged. -/
def endOp (s : State) (i : ℕ) : Option State :=
  if i ∈ s.active then
    match s.log.endOp with
    | .error _ => none
    | .ok (l, false) => some { s with log := l, active := s.active.erase i }
    | .ok (l, true) =>
      let s :=
        { s with log := l, active := s.active.erase i, groups := s.groups ++ [s.cur], cur := [] }
      if 0 < l.lh.length then some { s with pc := .writeLog 0 }
      else some { s with
        pc := .committed
        ncommitted := s.ncommitted + 1
        nreturned := s.nreturned + 1 }
  else none

def installBlock (c : Layout) (s : State) (tail b : ℕ) : State :=
  let s := (s.fetch (c.start + tail + 1)).fetch b
  s.bwrite b (s.bread (c.start + tail + 1))

def writeHeader (c : Layout) (s : State) : State :=
  let s := s.fetch c.start
  s.bwrite c.start (Xv6.writeHead (s.bread c.start) s.log.lh)

def advance (c : Layout) (s : State) : Option State :=
  match s.pc with
  | .running => none
  | .writeLog tail =>
    match s.log.lh[tail]? with
    | some b =>
      let s := (s.fetch (c.start + tail + 1)).fetch b
      some { s.bwrite (c.start + tail + 1) (s.bread b) with pc := .writeLog (tail + 1) }
    | none => some { s with pc := .writeHead }
  | .writeHead =>
    some { writeHeader c s with pc := .install 0, ncommitted := s.ncommitted + 1 }
  | .install tail =>
    match s.log.lh[tail]? with
    | some b =>
      some { installBlock c s tail b with pins := bunpin s.pins b, pc := .install (tail + 1) }
    | none => some { s with pc := .clearHead }
  | .clearHead =>
    some { writeHeader c { s with log := s.log.clear } with
      pc := .committed
      nreturned := s.nreturned + 1 }
  | .committed => some { s with log := s.log.endCommit, pc := .running }
  | .recRead =>
    let s := s.fetch c.start
    some { s with log := { s.log with lh := readHead (s.bread c.start) }, pc := .recInstall 0 }
  | .recInstall tail =>
    match s.log.lh[tail]? with
    | some b => some { installBlock c s tail b with pc := .recInstall (tail + 1) }
    | none => some { s with pc := .recClear }
  | .recClear =>
    some { writeHeader c { s with log := s.log.clear } with
      pc := .running
      groups := s.groups.take s.ncommitted
      nreturned := s.ncommitted }

/-- Power loss: memory is gone, the disk stays, and the next thing to run is recovery. -/
def crash (c : Layout) (s : State) : State :=
  { s with
    cache := fun _ => none
    pins := fun _ => 0
    log := Log.init c.size
    pc := .recRead
    active := []
    cur := [] }

def next (c : Layout) (s : State) : Event → Option State
  | .beginOp => beginOp s
  | .logWrite i b data => logWrite c s i b data
  | .endOp i => endOp s i
  | .bread b => some (s.fetch b)
  | .evict b => if s.pins b = 0 then some { s with cache := update s.cache b none } else none
  | .advance => advance c s
  | .crash => some (crash c s)

def sys (c : Layout) (disk : ℕ → Block) : TransSys State Event where
  init := fun s => s = boot c disk
  step := fun s e s' => next c s e = some s'

/-! ## Applying commit groups -/

def applyWrites : List Write → (ℕ → Block) → ℕ → Block
  | [], d => d
  | w :: ws, d => applyWrites ws (update d w.block w.data)

def applyGroups (gs : List (List Write)) (d : ℕ → Block) : ℕ → Block :=
  applyWrites gs.flatten d

theorem applyWrites_append (ws vs : List Write) (d : ℕ → Block) :
    applyWrites (ws ++ vs) d = applyWrites vs (applyWrites ws d) := by
  induction ws generalizing d with
  | nil => rfl
  | cons w ws ih => simp [applyWrites, ih]

theorem applyWrites_of_not_mem (ws : List Write) (d : ℕ → Block) (b : ℕ)
    (h : ∀ w ∈ ws, w.block ≠ b) : applyWrites ws d b = d b := by
  induction ws generalizing d with
  | nil => rfl
  | cons w ws ih =>
    rw [applyWrites, ih _ fun v hv => h v (List.mem_cons_of_mem w hv),
      update_of_ne (h w List.mem_cons_self).symm]

theorem applyGroups_append_singleton (gs : List (List Write)) (g : List Write) (d : ℕ → Block) :
    applyGroups (gs ++ [g]) d = applyWrites g (applyGroups gs d) := by
  simp [applyGroups, applyWrites_append]

end Xv6.CrashLog
