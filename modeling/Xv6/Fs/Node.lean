import Xv6.Fs.Blocks

/-! # The contents of files and directories

The bytes of a file and the entries of a directory. To the layers above, an inode is a node: a type,
a link count and, for a directory, entries.
-/

namespace Xv6.Fs
set_option autoImplicit false

namespace Dinode

def byte (d : Disk) (x : Dinode) (o : ℕ) : ℕ := (d (x.blk d (o / BSIZE))).byte (o % BSIZE)

def bytes (d : Disk) (x : Dinode) (off n : ℕ) : List UInt8 :=
  (List.range n).map fun r => UInt8.ofNat (x.byte d (off + r))

def dent (d : Disk) (x : Dinode) (k : ℕ) : Dirent :=
  .ofBytes (x.bytes d (k * sizeofDirent) sizeofDirent)

def dents (d : Disk) (x : Dinode) : List Dirent :=
  (List.range (x.size / sizeofDirent)).map (x.dent d)

end Dinode

structure Node where
  type : BitVec 16
  nlink : BitVec 16
  dents : List Dirent

def Node.free : Node := ⟨0, 0, []⟩

def Dinode.node (d : Disk) (x : Dinode) : Node :=
  ⟨x.type, x.nlink, if x.type = T_DIR then x.dents d else []⟩

theorem Dinode.node_dir {d : Disk} {x : Dinode} (h : x.type = T_DIR) :
    x.node d = ⟨T_DIR, x.nlink, x.dents d⟩ := by
  rw [node, if_pos h, h]

def nodes (sb : Superblock) (d : Disk) (i : ℕ) : Node :=
  if i < sb.ninodes then (sb.dinode d i).node d else .free

/-! ## The same contents -/

section
variable {sb : Superblock} {d d' : Disk} {x y : Dinode}

theorem Dinode.blk_congr (haddrs : y.addrs = x.addrs) {bn : ℕ} : y.blk d bn = x.blk d bn := by
  rw [blk, blk]
  cases Slot.of bn with
  | addr n => exact congrFun haddrs n
  | entry j => rw [ref, ref, haddrs]

theorem Dinode.byte_congr (haddrs : y.addrs = x.addrs) {o : ℕ} : y.byte d o = x.byte d o := by
  rw [byte, blk_congr haddrs, byte]

theorem Dinode.bytes_congr {off n : ℕ} (h : ∀ o, off ≤ o → o < off + n → y.byte d' o = x.byte d o) :
    y.bytes d' off n = x.bytes d off n := by
  refine List.map_congr_left ?_
  intro r hr
  have hr := List.mem_range.mp hr
  rw [h (off + r) (by omega) (by omega)]

theorem Dinode.dents_congr (hsize : y.size = x.size) (h : ∀ o < x.size, y.byte d' o = x.byte d o) :
    y.dents d' = x.dents d := by
  rw [dents, dents, hsize]
  refine List.map_congr_left ?_
  intro k hk
  have hk := List.mem_range.mp hk
  have hmul : k * sizeofDirent + sizeofDirent ≤ x.size := by
    rw [← Nat.succ_mul]
    exact (Nat.le_div_iff_mul_le (by decide)).mp hk
  refine congrArg Dirent.ofBytes (bytes_congr ?_)
  intro o _ ho
  exact h o (by omega)

theorem Dinode.dents_eq_of_blocks (h : ∀ bn, bn * BSIZE < x.size →
    x.blk d' bn = x.blk d bn ∧ d' (x.blk d bn) = d (x.blk d bn)) : x.dents d' = x.dents d := by
  refine dents_congr rfl ?_
  intro o ho
  obtain ⟨hblk, hdata⟩ := h (o / BSIZE) (lt_of_le_of_lt (Nat.div_mul_le_self _ _) ho)
  rw [byte, hblk, hdata, byte]

@[simp] theorem Dinode.length_dents : (x.dents d).length = x.size / sizeofDirent := by
  simp [dents]

theorem Dinode.getElem?_dents {k : ℕ} (h : k < x.size / sizeofDirent) :
    (x.dents d)[k]? = some (x.dent d k) := by
  simp [dents, h]

theorem nodes_congr {I : ℕ → Dinode} (hb : BlockInv sb I d) {j : ℕ} (hI : I j = sb.dinode d j)
    (hdinode : j < sb.ninodes → sb.dinode d' j = sb.dinode d j)
    (href : j < sb.ninodes → (sb.dinode d j).type ≠ 0 → ∀ τ,
      (sb.dinode d j).ref d' τ = (sb.dinode d j).ref d τ)
    (hdata : j < sb.ninodes → (sb.dinode d j).type ≠ 0 → ∀ τ, (sb.dinode d j).ref d τ ≠ 0 →
      d' ((sb.dinode d j).ref d τ) = d ((sb.dinode d j).ref d τ)) :
    nodes sb d' j = nodes sb d j := by
  unfold nodes
  split
  · next hj =>
    rw [hdinode hj, Dinode.node, Dinode.node]
    by_cases ht : (sb.dinode d j).type = T_DIR
    · have h0 : (sb.dinode d j).type ≠ 0 := by
        rw [ht]
        decide
      rw [if_pos ht, if_pos ht, Dinode.dents_eq_of_blocks]
      intro bn hbn
      have hfull := hb.full j hj (by rw [hI]; exact h0) bn (by rw [hI]; exact hbn)
      rw [hI] at hfull
      exact ⟨href hj h0 _, hdata hj h0 _ hfull⟩
    · rw [if_neg ht, if_neg ht]
  · rfl

end
end Xv6.Fs
