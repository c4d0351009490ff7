import Xv6.Fs.Disk

/-! # The areas of the disk

On a disk laid out as `mkfs` does it the dinodes, the bitmap and the data blocks are apart, so a
write to one of them leaves the others alone.
-/

namespace Xv6.Fs
set_option autoImplicit false
open Function (update update_self update_of_ne)
open ByteBlock (getHalf_setWords_ne getHalf_setWord_ne getHalf_setHalf_ne getHalf_setHalf_self
  getWord_setHalf_ne)

/-- The inode blocks end before the bitmap, and the bitmap before the data blocks. Inode numbers fit
into a `ushort` and block numbers into an `int`. -/
structure Superblock.Layout (sb : Superblock) : Prop where
  inodes : sb.inodestart + sb.ninodes / IPB < sb.bmapstart
  bitmap : sb.bmapstart + sb.size / BPB < sb.datastart
  ninodes : sb.ninodes ≤ 2 ^ 16
  size : sb.size < 2 ^ 31
  root : ROOTINO < sb.ninodes

def Superblock.IsData (sb : Superblock) (b : ℕ) : Prop := sb.datastart ≤ b ∧ b < sb.size

structure Dinode.Fits (x : Dinode) : Prop where
  size : x.size < 2 ^ 32
  addrs : ∀ k, x.addrs k < 2 ^ 32

namespace Dinode

theorem ext {x y : Dinode} (htype : x.type = y.type) (hmajor : x.major = y.major)
    (hminor : x.minor = y.minor) (hnlink : x.nlink = y.nlink) (hsize : x.size = y.size)
    (haddrs : ∀ k, x.addrs k = y.addrs k) : x = y := by
  obtain ⟨_, _, _, _, _, _⟩ := x
  obtain ⟨_, _, _, _, _, _⟩ := y
  obtain rfl := funext haddrs
  simp_all

theorem get_put_self (b : Block) {i : ℕ} (hi : i < IPB) {x : Dinode} (hx : x.Fits) :
    get (put b i x) i = x := by
  have hIPB : IPB = 16 := rfl
  have hBSIZE : BSIZE = 1024 := rfl
  have hNDIRECT : NDIRECT = 12 := rfl
  have hhalf : ∀ v : BitVec 16, BitVec.ofNat 16 (v.toNat % 65536) = v := by
    intro v
    rw [Nat.mod_eq_of_lt v.isLt, BitVec.ofNat_toNat, BitVec.setWidth_eq]
  apply ext
  · change BitVec.ofNat 16 ((put b i x).getHalf (32 * i)) = x.type
    rw [put, getHalf_setWords_ne _ _ (by omega),
      getHalf_setWord_ne _ _ (by omega), getHalf_setHalf_ne _ _ (by omega),
      getHalf_setHalf_ne _ _ (by omega), getHalf_setHalf_ne _ _ (by omega),
      getHalf_setHalf_self _ _ _ (by omega), hhalf]
  · change BitVec.ofNat 16 ((put b i x).getHalf (32 * i + 1)) = x.major
    rw [put, getHalf_setWords_ne _ _ (by omega),
      getHalf_setWord_ne _ _ (by omega), getHalf_setHalf_ne _ _ (by omega),
      getHalf_setHalf_ne _ _ (by omega), getHalf_setHalf_self _ _ _ (by omega),
      hhalf]
  · change BitVec.ofNat 16 ((put b i x).getHalf (32 * i + 2)) = x.minor
    rw [put, getHalf_setWords_ne _ _ (by omega),
      getHalf_setWord_ne _ _ (by omega), getHalf_setHalf_ne _ _ (by omega),
      getHalf_setHalf_self _ _ _ (by omega), hhalf]
  · change BitVec.ofNat 16 ((put b i x).getHalf (32 * i + 3)) = x.nlink
    rw [put, getHalf_setWords_ne _ _ (by omega),
      getHalf_setWord_ne _ _ (by omega), getHalf_setHalf_self _ _ _ (by omega),
      hhalf]
  · change (put b i x).getWord (16 * i + 2) = x.size
    rw [put, ByteBlock.getWord_setWords_ne _ _ (by omega),
      ByteBlock.getWord_setWord_self _ _ _ (by omega)]
    exact Nat.mod_eq_of_lt hx.size
  · intro k
    have hk := k.isLt
    change (put b i x).getWord (16 * i + 3 + k) = x.addrs k
    rw [put, ByteBlock.getWord_setWords _ _ _ k (by omega)]
    exact Nat.mod_eq_of_lt (hx.addrs k)

theorem get_put_ne (b : Block) {i j : ℕ} (hij : j ≠ i) (x : Dinode) :
    get (put b i x) j = get b j := by
  have hNDIRECT : NDIRECT = 12 := rfl
  have hhalf : ∀ r < 4, (put b i x).getHalf (32 * j + r) = b.getHalf (32 * j + r) := by
    intro r hr
    rw [put, getHalf_setWords_ne _ _ (by omega),
      getHalf_setWord_ne _ _ (by omega), getHalf_setHalf_ne _ _ (by omega),
      getHalf_setHalf_ne _ _ (by omega), getHalf_setHalf_ne _ _ (by omega),
      getHalf_setHalf_ne _ _ (by omega)]
  have hword : ∀ r, 2 ≤ r → r < 16 → (put b i x).getWord (16 * j + r) = b.getWord (16 * j + r) := by
    intro r h2 hr
    rw [put, ByteBlock.getWord_setWords_ne _ _ (by omega),
      ByteBlock.getWord_setWord_ne _ _ _ _ (by omega), getWord_setHalf_ne _ _ (by omega),
      getWord_setHalf_ne _ _ (by omega), getWord_setHalf_ne _ _ (by omega),
      getWord_setHalf_ne _ _ (by omega)]
  apply ext
  · exact congrArg (BitVec.ofNat 16) (hhalf 0 (by omega))
  · exact congrArg (BitVec.ofNat 16) (hhalf 1 (by omega))
  · exact congrArg (BitVec.ofNat 16) (hhalf 2 (by omega))
  · exact congrArg (BitVec.ofNat 16) (hhalf 3 (by omega))
  · exact hword 2 (by omega) (by omega)
  · intro k
    have hk := k.isLt
    have hw := hword (3 + k) (by omega) (by omega)
    rw [← Nat.add_assoc] at hw
    exact hw

end Dinode

namespace Superblock
variable {sb : Superblock} (L : sb.Layout) (d : Disk)

include L

theorem Layout.bmapstart_lt : sb.bmapstart < sb.datastart :=
  lt_of_le_of_lt (Nat.le_add_right _ _) L.bitmap

theorem Layout.IBLOCK_lt {i : ℕ} (hi : i < sb.ninodes) : sb.IBLOCK i < sb.bmapstart := by
  have hdiv : i / IPB ≤ sb.ninodes / IPB := Nat.div_le_div_right hi.le
  calc sb.IBLOCK i = sb.inodestart + i / IPB := Nat.add_comm _ _
    _ ≤ sb.inodestart + sb.ninodes / IPB := Nat.add_le_add_left hdiv _
    _ < sb.bmapstart := L.inodes

omit L in
theorem bmapstart_le_BBLOCK (b : ℕ) : sb.bmapstart ≤ sb.BBLOCK b := Nat.le_add_left _ _

theorem Layout.BBLOCK_lt {b : ℕ} (hb : b < sb.size) : sb.BBLOCK b < sb.datastart := by
  have hdiv : b / BPB ≤ sb.size / BPB := Nat.div_le_div_right hb.le
  calc sb.BBLOCK b = sb.bmapstart + b / BPB := Nat.add_comm _ _
    _ ≤ sb.bmapstart + sb.size / BPB := Nat.add_le_add_left hdiv _
    _ < sb.datastart := L.bitmap

/-! ## Writes to a dinode -/

variable {i j : ℕ} {x : Dinode}

omit L in
theorem dinode_setDinode_self (hx : x.Fits) : sb.dinode (sb.setDinode d i x) i = x := by
  rw [dinode, setDinode, update_self]
  exact Dinode.get_put_self _ (Nat.mod_lt _ (by decide)) hx

omit L in
theorem dinode_setDinode_ne (h : j ≠ i) :
    sb.dinode (sb.setDinode d i x) j = sb.dinode d j := by
  rw [dinode, setDinode]
  by_cases hblock : sb.IBLOCK j = sb.IBLOCK i
  · rw [hblock, update_self, Dinode.get_put_ne, dinode, hblock]
    intro hmod
    have hdiv : j / IPB = i / IPB := Nat.add_right_cancel hblock
    apply h
    rw [← Nat.div_add_mod j IPB, hdiv, hmod, Nat.div_add_mod]
  · rw [update_of_ne hblock, dinode]

theorem Layout.bit_setDinode (hi : i < sb.ninodes) (b : ℕ) :
    sb.bit (sb.setDinode d i x) b = sb.bit d b := by
  have h1 := L.IBLOCK_lt hi
  have h2 : sb.bmapstart ≤ sb.BBLOCK b := bmapstart_le_BBLOCK b
  rw [bit, setDinode, update_of_ne (by omega), bit]

theorem Layout.setDinode_of_ge (hi : i < sb.ninodes) {b : ℕ} (hb : sb.datastart ≤ b) :
    sb.setDinode d i x b = d b := by
  have h1 := L.IBLOCK_lt hi
  have h2 := L.bmapstart_lt
  rw [setDinode, update_of_ne (by omega)]

/-! ## Writes to the bitmap -/

variable {b c : ℕ} {v : Bool}

omit L in
theorem bit_setBit_self : sb.bit (sb.setBit d b v) b = v := by
  have hlt : b % BPB < BSIZE * 8 := Nat.mod_lt _ (by decide)
  rw [bit, setBit, update_self]
  exact ByteBlock.getBit_setBit_self _ _ _ (by omega)

omit L in
theorem bit_setBit_ne (h : c ≠ b) : sb.bit (sb.setBit d b v) c = sb.bit d c := by
  rw [bit, setBit]
  by_cases hblock : sb.BBLOCK c = sb.BBLOCK b
  · rw [hblock, update_self, ByteBlock.getBit_setBit_ne, bit, hblock]
    intro hmod
    have hdiv : c / BPB = b / BPB := Nat.add_right_cancel hblock
    apply h
    rw [← Nat.div_add_mod c BPB, hdiv, hmod, Nat.div_add_mod]
  · rw [update_of_ne hblock, bit]

theorem Layout.dinode_setBit (hi : i < sb.ninodes) :
    sb.dinode (sb.setBit d b v) i = sb.dinode d i := by
  have h1 := L.IBLOCK_lt hi
  have h2 : sb.bmapstart ≤ sb.BBLOCK b := bmapstart_le_BBLOCK b
  rw [dinode, setBit, update_of_ne (by omega), dinode]

theorem Layout.setBit_of_ge (hb : b < sb.size) (hc : sb.datastart ≤ c) :
    sb.setBit d b v c = d c := by
  have h := L.BBLOCK_lt hb
  rw [setBit, update_of_ne (by omega)]

/-! ## Writes to a data block -/

variable {blk : Block}

theorem Layout.dinode_update (hi : i < sb.ninodes) (hb : sb.datastart ≤ b) :
    sb.dinode (update d b blk) i = sb.dinode d i := by
  have h1 := L.IBLOCK_lt hi
  have h2 := L.bmapstart_lt
  rw [dinode, update_of_ne (by omega), dinode]

theorem Layout.bit_update (hb : sb.datastart ≤ b) (hc : c < sb.size) :
    sb.bit (update d b blk) c = sb.bit d c := by
  have h := L.BBLOCK_lt hc
  rw [bit, update_of_ne (by omega), bit]

end Superblock
end Xv6.Fs
