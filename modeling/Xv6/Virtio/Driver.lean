import Xv6.Lib.Outcome
import Xv6.Lib.RingBuf
import Xv6.Lib.TransSys
import Xv6.Param

/-! # The virtio disk driver

`kernel/virtio_disk.c`, called by any processes of type `P` for buffers of type `B`, and the device
it talks to. `disk.vdisk_lock` is the lock of all the driver's code, so a stretch of it that the
device cannot see into is one step; `&disk.free[0]` and the buffers are its channels. A caller holds
the sleep-lock of its buffer, as `bread` and `bwrite` of `kernel/bio.c` do. An interrupt counts as a
process. Descriptor numbers kept in memory are below `NUM`, so their widths do not matter; the
indices of the rings are 16 bits wide and wrap. The bytes that are transferred, and `used.len`, are
left out.
-/

namespace Xv6.Virtio
open RingBuf (cell)
set_option autoImplicit false
open Function (update)

def NUM : ℕ := 8

instance : NeZero NUM := ⟨by decide⟩

instance : LawfulBEq (Fin NUM) := inferInstance

def VRING_DESC_F_NEXT : BitVec 16 := 1

def VRING_DESC_F_WRITE : BitVec 16 := 2

def VIRTIO_BLK_T_IN : BitVec 32 := 0

def VIRTIO_BLK_T_OUT : BitVec 32 := 1

def sizeofReq : ℕ := 16

/-- What an address given to the device points to. -/
inductive Addr (B : Type) where
  | null
  | op (i : Fin NUM)
  | data (b : B)
  | status (i : Fin NUM)

structure Desc (B : Type) where
  addr : Addr B
  len : ℕ
  flags : BitVec 16
  next : ℕ

structure Avail where
  idx : BitVec 16
  ring : Fin NUM → ℕ

structure Used where
  idx : BitVec 16
  ring : Fin NUM → ℕ

structure BlkReq where
  type : BitVec 32
  reserved : BitVec 32
  sector : BitVec 64
  deriving DecidableEq

structure Info (B : Type) where
  b : Option B
  status : UInt8

structure Disk (B : Type) where
  desc : Fin NUM → Desc B
  avail : Avail
  used : Used
  free : Fin NUM → Bool
  usedIdx : BitVec 16
  info : Fin NUM → Info B
  ops : Fin NUM → BlkReq

/-- The local variables of a `virtio_disk_rw` that has its three descriptors. -/
structure Req (B : Type) where
  b : B
  write : Bool
  sector : BitVec 64
  i₀ : Fin NUM
  i₁ : Fin NUM
  i₂ : Fin NUM
  deriving DecidableEq

def Req.op {B : Type} (c : Req B) : BlkReq :=
  ⟨if c.write then VIRTIO_BLK_T_OUT else VIRTIO_BLK_T_IN, 0, c.sector⟩

def Req.descs {B : Type} (c : Req B) : List (Fin NUM) := [c.i₀, c.i₁, c.i₂]

inductive At where
  | entering
  | inside
  | asleep
  deriving DecidableEq

inductive Place (B : Type) where
  | idle
  | alloc (a : At) (b : B) (blockno : BitVec 32) (write : Bool)
  | notify (c : Req B)
  | wait (a : At) (c : Req B)
  | intr (a : At)
  deriving DecidableEq

inductive Chan (B : Type) where
  | free
  | buf (b : B)
  deriving DecidableEq

def Place.chan {B : Type} : Place B → Option (Chan B)
  | alloc .asleep _ _ _ => some .free
  | wait .asleep c => some (.buf c.b)
  | _ => none

def Place.put {B : Type} (a : At) : Place B → Place B
  | alloc _ b blockno write => alloc a b blockno write
  | wait _ c => wait a c
  | intr _ => intr a
  | x => x

/-- The device: how far it has read the avail ring, the heads it works on, and a head that is
finished and written to the used ring but not yet counted by `used.idx`. -/
structure Device where
  last : BitVec 16
  pending : List (Fin NUM)
  done : Option (Fin NUM)

inductive Hist (P B : Type) where
  | submit (p : P) (c : Req B)
  | complete (head : Fin NUM) (b : B) (op : BlkReq)
  | ret (p : P) (c : Req B)
  deriving DecidableEq

/-- `busy` is the field `disk` of the buffers and `holder` the owner of their sleep-locks. The
history has the newest event first. -/
structure State (P B : Type) where
  disk : Disk B
  dev : Device
  busy : B → Bool
  holder : B → Option P
  lock : Option P
  place : P → Place B
  hist : List (Hist P B)

inductive Fault where
  | freeDesc1
  | freeDesc2
  | intrStatus
  /-- A descriptor number or a buffer pointer from memory is not valid. -/
  | badIndex
  | nullBuf
  /-- The device is given what is not a chain of three descriptors for a block. -/
  | badChain

section
variable {P B : Type} [DecidableEq P] [DecidableEq B]

def wakeup (s : State P B) (chan : Chan B) : State P B :=
  { s with
    place := fun q =>
      if (s.place q).chan = some chan then (s.place q).put .entering else s.place q }

/-! ## Descriptors -/

def allocDesc (s : State P B) : Option (Fin NUM × State P B) :=
  match (List.finRange NUM).find? s.disk.free with
  | some i => some (i, { s with disk := { s.disk with free := update s.disk.free i false } })
  | none => none

def freeDesc (s : State P B) (i : ℕ) : Outcome Fault (State P B) :=
  if h : i < NUM then
    if s.disk.free ⟨i, h⟩ then .fail .freeDesc2
    else
      .ok (wakeup
        { s with
          disk := { s.disk with
            desc := update s.disk.desc ⟨i, h⟩ ⟨.null, 0, 0, 0⟩
            free := update s.disk.free ⟨i, h⟩ true } } .free)
  else .fail .freeDesc1

/-- At most `fuel` descriptors are freed. A number that is out of range is not looked up, since
`freeDesc` fails at once. -/
def freeChain : ℕ → State P B → ℕ → Outcome Fault (State P B)
  | 0, _, _ => .blocked
  | fuel + 1, s, i => do
    let s' ← freeDesc s i
    if h : i < NUM then
      let d := s.disk.desc ⟨i, h⟩
      if d.flags &&& VRING_DESC_F_NEXT ≠ 0 then freeChain fuel s' d.next else .ok s'
    else .ok s'

def freeAll (s : State P B) : List (Fin NUM) → Outcome Fault (State P B)
  | [] => .ok s
  | i :: is => do
    let s ← freeDesc s i
    freeAll s is

/-- The last `k` of the three iterations of `alloc3_desc`; `idx` holds what the others got. -/
def alloc3Loop : ℕ → List (Fin NUM) → State P B →
    Outcome Fault (Option (List (Fin NUM)) × State P B)
  | 0, idx, s => .ok (some idx, s)
  | k + 1, idx, s =>
    match allocDesc s with
    | some (i, s) => alloc3Loop k (idx ++ [i]) s
    | none => do
      let s ← freeAll s idx
      .ok (none, s)

def alloc3Desc (s : State P B) : Outcome Fault (Option (List (Fin NUM)) × State P B) :=
  alloc3Loop 3 [] s

/-! ## Requests -/

/-- The three descriptors are formatted, and the request is recorded and put into the avail ring. -/
def Disk.format (d : Disk B) (c : Req B) : Disk B :=
  { d with
    ops := update d.ops c.i₀ c.op
    desc :=
      update (update (update d.desc
        c.i₀ ⟨.op c.i₀, sizeofReq, VRING_DESC_F_NEXT, c.i₁⟩)
        c.i₁ ⟨.data c.b, BSIZE,
          (if c.write then 0 else VRING_DESC_F_WRITE) ||| VRING_DESC_F_NEXT, c.i₂⟩)
        c.i₂ ⟨.status c.i₀, 1, VRING_DESC_F_WRITE, 0⟩
    info := update d.info c.i₀ ⟨some c.b, 0xff⟩
    avail := { d.avail with ring := update d.avail.ring (cell d.avail.idx) c.i₀ } }

def State.forget (s : State P B) (i : Fin NUM) : State P B :=
  { s with
    disk := { s.disk with info := update s.disk.info i { s.disk.info i with b := none } } }

def State.leave (s : State P B) (p : P) (x : Place B) : State P B :=
  { s with lock := none, place := update s.place p x }

/-- The next stretch of `virtio_disk_rw` or `virtio_disk_intr`, by the process that has the lock. -/
def go (s : State P B) (p : P) : Outcome Fault (State P B) :=
  match s.place p with
  | .alloc .inside b blockno write => do
    match ← alloc3Desc s with
    | (some [i₀, i₁, i₂], s) =>
      let c : Req B := ⟨b, write, (blockno * BitVec.ofNat 32 (BSIZE / 512)).setWidth 64, i₀, i₁, i₂⟩
      .ok { s with
        disk := s.disk.format c
        busy := update s.busy b true
        place := update s.place p (.notify c) }
    | (_, s) => .ok (s.leave p (.alloc .asleep b blockno write))
  | .notify c =>
    .ok { s with
      disk := { s.disk with avail := { s.disk.avail with idx := s.disk.avail.idx + 1 } }
      place := update s.place p (.wait .inside c)
      hist := .submit p c :: s.hist }
  | .wait .inside c =>
    if s.busy c.b then .ok (s.leave p (.wait .asleep c))
    else do
      let s ← freeChain (NUM + 1) (s.forget c.i₀) c.i₀
      .ok { s.leave p .idle with hist := .ret p c :: s.hist }
  | .intr .inside =>
    if s.disk.usedIdx ≠ s.disk.used.idx then
      let id := s.disk.used.ring (cell s.disk.usedIdx)
      if h : id < NUM then
        let info := s.disk.info ⟨id, h⟩
        if info.status ≠ 0 then .fail .intrStatus
        else
          match info.b with
          | some b =>
            let s := wakeup { s with busy := update s.busy b false } (.buf b)
            .ok { s with disk := { s.disk with usedIdx := s.disk.usedIdx + 1 } }
          | none => .fail .nullBuf
      else .fail .badIndex
    else .ok (s.leave p .idle)
  | _ => .blocked

/-! ## The device -/

/-- The device walks the chain of a head: its command, its buffer and the byte for the status. -/
def Disk.walk (d : Disk B) (head : Fin NUM) : Option (BlkReq × B × Fin NUM) :=
  let d₀ := d.desc head
  match d₀.addr with
  | .op i =>
    if d₀.flags = VRING_DESC_F_NEXT ∧ d₀.len = sizeofReq then
      if h₁ : d₀.next < NUM then
        let d₁ := d.desc ⟨d₀.next, h₁⟩
        let req := d.ops i
        let dir := if req.type = VIRTIO_BLK_T_OUT then 0 else VRING_DESC_F_WRITE
        match d₁.addr with
        | .data b =>
          if d₁.flags = dir ||| VRING_DESC_F_NEXT ∧ d₁.len = BSIZE then
            if h₂ : d₁.next < NUM then
              let d₂ := d.desc ⟨d₁.next, h₂⟩
              match d₂.addr with
              | .status j =>
                if d₂.flags = VRING_DESC_F_WRITE ∧ d₂.len = 1 then some (req, b, j) else none
              | _ => none
            else none
          else none
        | _ => none
      else none
    else none
  | _ => none

def take (s : State P B) : Outcome Fault (State P B) :=
  if s.dev.last = s.disk.avail.idx then .blocked
  else
    let head := s.disk.avail.ring (cell s.dev.last)
    if h : head < NUM then
      .ok { s with
        dev := { s.dev with last := s.dev.last + 1, pending := s.dev.pending ++ [⟨head, h⟩] } }
    else .fail .badIndex

/-- The device completes a pending head with status 0 and writes it to the used ring. -/
def finish (s : State P B) (head : Fin NUM) : Outcome Fault (State P B) :=
  if head ∈ s.dev.pending ∧ s.dev.done = none then
    match s.disk.walk head with
    | some (op, b, j) =>
      .ok { s with
        disk := { s.disk with
          info := update s.disk.info j { s.disk.info j with status := 0 }
          used := { s.disk.used with
            ring := update s.disk.used.ring (cell s.disk.used.idx) head } }
        dev := { s.dev with pending := s.dev.pending.erase head, done := some head }
        hist := .complete head b op :: s.hist }
    | none => .fail .badChain
  else .blocked

def publish (s : State P B) : Outcome Fault (State P B) :=
  match s.dev.done with
  | some _ =>
    .ok { s with
      disk := { s.disk with used := { s.disk.used with idx := s.disk.used.idx + 1 } }
      dev := { s.dev with done := none } }
  | none => .blocked

/-! ## The system -/

inductive Event (P B : Type) where
  | acquiresleep (p : P) (b : B)
  | releasesleep (p : P) (b : B)
  | rw (p : P) (b : B) (blockno : BitVec 32) (write : Bool)
  | intr (p : P)
  | enter (p : P)
  | go (p : P)
  | take
  | finish (head : Fin NUM)
  | publish

def Place.entering {B : Type} : Place B → Bool
  | alloc .entering _ _ _ => true
  | wait .entering _ => true
  | intr .entering => true
  | _ => false

def step (s : State P B) : Event P B → Outcome Fault (State P B)
  | .acquiresleep p b =>
    if s.place p = .idle ∧ s.holder b = none then
      .ok { s with holder := update s.holder b (some p) }
    else .blocked
  | .releasesleep p b =>
    if s.place p = .idle ∧ s.holder b = some p then
      .ok { s with holder := update s.holder b none }
    else .blocked
  | .rw p b blockno write =>
    if s.place p = .idle ∧ s.holder b = some p then
      .ok { s with place := update s.place p (.alloc .entering b blockno write) }
    else .blocked
  | .intr p =>
    if s.place p = .idle then .ok { s with place := update s.place p (.intr .entering) }
    else .blocked
  | .enter p =>
    if (s.place p).entering ∧ s.lock = none then
      .ok { s with
        lock := some p
        place := update s.place p ((s.place p).put .inside) }
    else .blocked
  | .go p => if s.lock = some p then go s p else .blocked
  | .take => take s
  | .finish head => finish s head
  | .publish => publish s

end

def Disk.init (B : Type) : Disk B where
  desc _ := ⟨.null, 0, 0, 0⟩
  avail := ⟨0, fun _ => 0⟩
  used := ⟨0, fun _ => 0⟩
  free _ := true
  usedIdx := 0
  info _ := ⟨none, 0⟩
  ops _ := ⟨0, 0, 0⟩

def State.init (P B : Type) : State P B where
  disk := Disk.init B
  dev := ⟨0, [], none⟩
  busy _ := false
  holder _ := none
  lock := none
  place _ := .idle
  hist := []

def sys (P B : Type) [DecidableEq P] [DecidableEq B] : TransSys (State P B) (Event P B) where
  init s := s = State.init P B
  step s e s' := step s e = .ok s'

end Xv6.Virtio
