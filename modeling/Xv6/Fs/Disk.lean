import Xv6.Lib.ByteFields
import Xv6.Param

/-! # The disk format

The structures of `kernel/fs.h` as the kernel finds them in the blocks of the disk: dinodes, the
free bitmap, indirect blocks and directory entries. The disk is the logical one, as seen through the
buffer cache and the log.
-/

namespace Xv6.Fs
set_option autoImplicit false

def NDIRECT : ℕ := 12

instance (priority := 2000) direct_neZero : @NeZero ℕ Zero.ofOfNat0 (NDIRECT + 1) := ⟨by decide⟩

def NINDIRECT : ℕ := BSIZE / 4

def MAXFILE : ℕ := NDIRECT + NINDIRECT

def DIRSIZ : ℕ := 14

def ROOTINO : ℕ := 1

def ROOTDEV : ℕ := 1

def T_DIR : BitVec 16 := 1

def T_FILE : BitVec 16 := 2

def T_DEVICE : BitVec 16 := 3

def BPB : ℕ := BSIZE * 8

/-- `struct superblock`, without the magic number. -/
structure Superblock where
  size : ℕ
  nblocks : ℕ
  ninodes : ℕ
  nlog : ℕ
  logstart : ℕ
  inodestart : ℕ
  bmapstart : ℕ
  deriving DecidableEq

/-- `struct dinode`, which is also the part of `struct inode` that is a copy of it. -/
structure Dinode where
  type : BitVec 16
  major : BitVec 16
  minor : BitVec 16
  nlink : BitVec 16
  size : ℕ
  addrs : Fin (NDIRECT + 1) → ℕ

def sizeofDinode : ℕ := 64

def IPB : ℕ := BSIZE / sizeofDinode

/-- `struct dirent`; the name is the string in the field. -/
structure Dirent where
  inum : ℕ
  name : List UInt8
  deriving DecidableEq

def sizeofDirent : ℕ := 16

abbrev Disk := ℕ → Block

/-! ## Dinodes -/

namespace Dinode

def zero : Dinode := ⟨0, 0, 0, 0, 0, fun _ => 0⟩

def get (b : Block) (i : ℕ) : Dinode where
  type := BitVec.ofNat 16 (b.getHalf (32 * i))
  major := BitVec.ofNat 16 (b.getHalf (32 * i + 1))
  minor := BitVec.ofNat 16 (b.getHalf (32 * i + 2))
  nlink := BitVec.ofNat 16 (b.getHalf (32 * i + 3))
  size := b.getWord (16 * i + 2)
  addrs k := b.getWord (16 * i + 3 + k)

def put (b : Block) (i : ℕ) (x : Dinode) : Block :=
  let b := b.setHalf (32 * i) x.type.toNat
  let b := b.setHalf (32 * i + 1) x.major.toNat
  let b := b.setHalf (32 * i + 2) x.minor.toNat
  let b := b.setHalf (32 * i + 3) x.nlink.toNat
  let b := b.setWord (16 * i + 2) x.size
  b.setWords (16 * i + 3) x.addrs

end Dinode

/-! ## Directory entries -/

namespace Dirent

def ofBytes (l : List UInt8) : Dirent where
  inum := (l.getD 0 0).toNat + 256 * (l.getD 1 0).toNat
  name := ((l.drop 2).take DIRSIZ).takeWhile (· ≠ 0)

def toBytes (de : Dirent) : List UInt8 :=
  [UInt8.ofNat (de.inum % 256), UInt8.ofNat (de.inum / 256 % 256)] ++
    (de.name ++ List.replicate DIRSIZ 0).take DIRSIZ

def zero : Dirent := ⟨0, []⟩

end Dirent

/-! ## The parts of the disk -/

namespace Superblock
variable (sb : Superblock)

def IBLOCK (i : ℕ) : ℕ := i / IPB + sb.inodestart

def BBLOCK (b : ℕ) : ℕ := b / BPB + sb.bmapstart

/-- The first data block; `mkfs` counts the others as metadata. -/
def datastart : ℕ := sb.size - sb.nblocks

def dinode (d : Disk) (i : ℕ) : Dinode := Dinode.get (d (sb.IBLOCK i)) (i % IPB)

def setDinode (d : Disk) (i : ℕ) (x : Dinode) : Disk :=
  Function.update d (sb.IBLOCK i) (Dinode.put (d (sb.IBLOCK i)) (i % IPB) x)

def bit (d : Disk) (b : ℕ) : Bool := (d (sb.BBLOCK b)).getBit (b % BPB)

def setBit (d : Disk) (b : ℕ) (v : Bool) : Disk :=
  Function.update d (sb.BBLOCK b) ((d (sb.BBLOCK b)).setBit (b % BPB) v)

end Superblock

end Xv6.Fs
