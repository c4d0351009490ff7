import Xv6.File.Table
import Xv6.Fs.Disk
import Xv6.Lib.Prog

/-! # Blocks and inodes

The block and inode layers of `kernel/fs.c`: `balloc`, `bfree`, the inode table, `bmap`, `itrunc`,
`readi` and `writei`. One system call runs at a time, so the locks are left out. A pointer into
`itable.inode` is its index.
-/

namespace Xv6.Fs
set_option autoImplicit false

structure Inode where
  dev : ℕ
  inum : ℕ
  ref : ℤ
  valid : Bool
  copy : Dinode

structure State where
  disk : Disk
  inode : InodeId → Inode

abbrev FsProg (α : Type) := Prog Failure State α

def panic {α : Type} (msg : String) : FsProg α := Prog.fail (.panic msg)

/-! ## Accesses -/

def bread (b : ℕ) : FsProg Block := .read fun s => s.disk b

def bwrite (b : ℕ) (x : Block) : FsProg Unit :=
  .modify fun s => { s with disk := Function.update s.disk b x }

def inode (ip : InodeId) : FsProg Inode := .read fun s => s.inode ip

def setInode (ip : InodeId) (f : Inode → Inode) : FsProg Unit :=
  .modify fun s => { s with inode := Function.update s.inode ip (f (s.inode ip)) }

def setCopy (ip : InodeId) (f : Dinode → Dinode) : FsProg Unit :=
  setInode ip fun x => { x with copy := f x.copy }

section
variable (sb : Superblock)

/-! ## Blocks -/

def bzero (b : ℕ) : FsProg Unit := bwrite b (ByteBlock.fill BSIZE 0)

/-- The first block whose bit is 0; the result 0 means that there is none. -/
def balloc : FsProg ℕ := do
  let d ← .read State.disk
  match (List.range sb.size).find? fun b => !sb.bit d b with
  | some b =>
    bwrite (sb.BBLOCK b) ((d (sb.BBLOCK b)).setBit (b % BPB) true)
    bzero b
    return b
  | none => return 0

def bfree (b : ℕ) : FsProg Unit := do
  let bp ← bread (sb.BBLOCK b)
  if bp.getBit (b % BPB) = false then panic "freeing free block"
  else bwrite (sb.BBLOCK b) (bp.setBit (b % BPB) false)

/-! ## The inode table -/

def iget (dev inum : ℕ) : FsProg InodeId := do
  let t ← .read State.inode
  match (List.finRange NINODE).find? fun k =>
    (t k).ref > 0 ∧ (t k).dev = dev ∧ (t k).inum = inum with
  | some k =>
    setInode k fun x => { x with ref := x.ref + 1 }
    return k
  | none =>
    match (List.finRange NINODE).find? fun k => (t k).ref = 0 with
    | some k =>
      setInode k fun x => { x with dev := dev, inum := inum, ref := 1, valid := false }
      return k
    | none => panic "iget: no inodes"

def idup (ip : InodeId) : FsProg InodeId := do
  setInode ip fun x => { x with ref := x.ref + 1 }
  return ip

def ialloc (dev : ℕ) (type : BitVec 16) : FsProg (Option InodeId) := do
  let d ← .read State.disk
  match (List.range sb.ninodes).find? fun i => i ≠ 0 ∧ (sb.dinode d i).type = 0 with
  | some i =>
    bwrite (sb.IBLOCK i) (Dinode.put (d (sb.IBLOCK i)) (i % IPB) { Dinode.zero with type := type })
    let ip ← iget dev i
    return some ip
  | none => return none

def iupdate (ip : InodeId) : FsProg Unit := do
  let x ← inode ip
  let bp ← bread (sb.IBLOCK x.inum)
  bwrite (sb.IBLOCK x.inum) (Dinode.put bp (x.inum % IPB) x.copy)

def ilock (ip : InodeId) : FsProg Unit := do
  let x ← inode ip
  if x.ref < 1 then panic "ilock"
  else if x.valid = false then
    let bp ← bread (sb.IBLOCK x.inum)
    let dip := Dinode.get bp (x.inum % IPB)
    setInode ip fun x => { x with copy := dip, valid := true }
    if dip.type = 0 then panic "ilock: no type"

def iunlock (ip : InodeId) : FsProg Unit := do
  let x ← inode ip
  if x.ref < 1 then panic "iunlock"

/-! ## The blocks of a file -/

/-- A block for the direct slot `bn`, or for the indirect block if `bn` is `NDIRECT`. -/
def bmapSlot (ip : InodeId) (bn : Fin (NDIRECT + 1)) : FsProg ℕ := do
  let x ← inode ip
  if x.copy.addrs bn = 0 then
    let addr ← balloc sb
    if addr = 0 then return 0
    else
      setCopy ip fun c => { c with addrs := Function.update c.addrs bn addr }
      return addr
  else return x.copy.addrs bn

def bmap (ip : InodeId) (bn : ℕ) : FsProg ℕ := do
  if bn < NDIRECT then bmapSlot sb ip (Fin.ofNat _ bn)
  else if bn - NDIRECT < NINDIRECT then
    let ind ← bmapSlot sb ip (Fin.last _)
    if ind = 0 then return 0
    else
      let bp ← bread ind
      let addr := bp.getWord (bn - NDIRECT)
      if addr = 0 then
        let addr ← balloc sb
        if addr = 0 then return 0
        else
          -- the indirect block was read before, and it is not the new block
          bwrite ind (bp.setWord (bn - NDIRECT) addr)
          return addr
      else return addr
  else panic "bmap: out of range"

def itruncDirect (ip : InodeId) : List (Fin NDIRECT) → FsProg Unit
  | [] => return
  | i :: is => do
    let x ← inode ip
    let addr := x.copy.addrs i.castSucc
    if addr ≠ 0 then
      bfree sb addr
      setCopy ip fun c => { c with addrs := Function.update c.addrs i.castSucc 0 }
    itruncDirect ip is

def itruncIndirect (bp : Block) : List ℕ → FsProg Unit
  | [] => return
  | j :: js => do
    if bp.getWord j ≠ 0 then bfree sb (bp.getWord j)
    itruncIndirect bp js

def itrunc (ip : InodeId) : FsProg Unit := do
  itruncDirect sb ip (List.finRange NDIRECT)
  let x ← inode ip
  let addr := x.copy.addrs (Fin.last _)
  if addr ≠ 0 then
    let bp ← bread addr
    itruncIndirect sb bp (List.range NINDIRECT)
    bfree sb addr
    setCopy ip fun c => { c with addrs := Function.update c.addrs (Fin.last _) 0 }
  setCopy ip fun c => { c with size := 0 }
  iupdate sb ip

def iput (ip : InodeId) : FsProg Unit := do
  let x ← inode ip
  if x.ref = 1 ∧ x.valid = true ∧ x.copy.nlink = 0 then
    itrunc sb ip
    setCopy ip fun c => { c with type := 0 }
    iupdate sb ip
    setInode ip fun x => { x with valid := false }
  setInode ip fun x => { x with ref := x.ref - 1 }

def iunlockput (ip : InodeId) : FsProg Unit := do
  iunlock ip
  iput sb ip

/-! ## Reading and writing -/

/-- The loop of `readi`; `copyout` tells whether the copy of the bytes from `tot` on succeeds, and
`fuel` bounds the number of iterations. -/
def readiLoop (ip : InodeId) (copyout : ℕ → Bool) : ℕ → ℕ → ℕ → ℕ → List UInt8 →
    FsProg (ℤ × List UInt8)
  | 0, _, tot, _, dst => return (tot, dst)
  | fuel + 1, off, tot, n, dst => do
    if tot < n then
      let addr ← bmap sb ip (off / BSIZE)
      if addr = 0 then return (tot, dst)
      else
        let bp ← bread addr
        let m := min (n - tot) (BSIZE - off % BSIZE)
        if copyout tot then
          readiLoop ip copyout fuel (off + m) (tot + m) n (dst ++ bp.slice (off % BSIZE) m)
        else return (-1, dst)
    else return (tot, dst)

def readi (ip : InodeId) (copyout : ℕ → Bool) (off n : ℕ) : FsProg (ℤ × List UInt8) := do
  let x ← inode ip
  if off > x.copy.size ∨ (off + n) % 2 ^ 32 < off then return (0, [])
  else
    let n := if off + n > x.copy.size then x.copy.size - off else n
    readiLoop sb ip copyout n off 0 n []

/-- The loop of `writei`; `copyin tot` is `some k` if the copy of the bytes from `tot` on fails
after `k` of them, which then are in the buffer. The result is `tot` and `off`. -/
def writeiLoop (ip : InodeId) (src : ℕ → UInt8) (copyin : ℕ → Option ℕ) : ℕ → ℕ → ℕ → ℕ →
    FsProg (ℕ × ℕ)
  | 0, off, tot, _ => return (tot, off)
  | fuel + 1, off, tot, n => do
    if tot < n then
      let addr ← bmap sb ip (off / BSIZE)
      if addr = 0 then return (tot, off)
      else
        let bp ← bread addr
        let m := min (n - tot) (BSIZE - off % BSIZE)
        match copyin tot with
        | some k =>
          bwrite addr (bp.copy (off % BSIZE) (min k m) fun j => src (tot + j))
          return (tot, off)
        | none =>
          bwrite addr (bp.copy (off % BSIZE) m fun j => src (tot + j))
          writeiLoop ip src copyin fuel (off + m) (tot + m) n
    else return (tot, off)

def writei (ip : InodeId) (src : ℕ → UInt8) (copyin : ℕ → Option ℕ) (off n : ℕ) : FsProg ℤ := do
  let x ← inode ip
  if off > x.copy.size ∨ (off + n) % 2 ^ 32 < off then return -1
  else if off + n > MAXFILE * BSIZE then return -1
  else
    let (tot, off) ← writeiLoop sb ip src copyin n off 0 n
    let x ← inode ip
    if off > x.copy.size then setCopy ip fun c => { c with size := off }
    iupdate sb ip
    return tot

end
end Xv6.Fs
