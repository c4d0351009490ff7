import Xv6.Fs.Wf

/-! # Disk images

The images from which the kernel can start, and the one of a file system with nothing but its root.
-/

namespace Xv6.Fs
set_option autoImplicit false

/-- The blocks of the files are apart and marked as used, and directories name inodes that exist. -/
structure Image (sb : Superblock) (d : Disk) : Prop where
  blocks : BlockInv sb (sb.dinode d) d
  dirs : DirsOk sb (nodes sb d)

def bootInode : InodeId := ⟨0, NINODE_pos⟩

/-- `iinit`, and `namei("/")` of `userinit`. -/
def State.boot (d : Disk) : State where
  disk := d
  inode k := if k = bootInode then ⟨ROOTDEV, ROOTINO, 1, false, .zero⟩ else ⟨0, 0, 0, false, .zero⟩

section
variable {sb : Superblock} {d : Disk}

theorem Image.boot (L : sb.Layout) (hd : Image sb d) : Wf sb (one bootInode) (State.boot d) := by
  have hpos : ∀ k, 0 < one bootInode k → k = bootInode := by
    intro k hk
    by_contra hne
    rw [one, Pi.single_eq_of_ne hne] at hk
    exact absurd hk (Nat.lt_irrefl 0)
  have hself : (State.boot d).inode bootInode = ⟨ROOTDEV, ROOTINO, 1, false, .zero⟩ := rfl
  refine ⟨⟨?_, ?_, ?_, ?_, ?_, hd.blocks⟩, hd.dirs⟩
  · intro k
    by_cases hk : k = bootInode
    · rw [hk, hself, one, Pi.single_eq_same]
      rfl
    · rw [one, Pi.single_eq_of_ne hk]
      exact congrArg Inode.ref (if_neg hk)
  · intro k k' hk hk' _
    rw [hpos k hk, hpos k' hk']
  · intro k hk
    rw [hpos k hk, hself]
  · intro k hk
    rw [hpos k hk, hself]
    exact L.root
  · intro k hk hvalid
    rw [hpos k hk, hself] at hvalid
    cases hvalid

end

/-! ## An empty file system -/

section
variable (sb : Superblock)

def zeroDisk : Disk := fun _ => ByteBlock.fill BSIZE 0

def rootDinode : Dinode :=
  ⟨T_DIR, 0, 0, 1, 2 * sizeofDirent, fun k => if k = 0 then sb.datastart else 0⟩

def rootBlock : Block :=
  (ByteBlock.fill BSIZE 0).copy 0 (2 * sizeofDirent) fun j =>
    (Dirent.toBytes ⟨ROOTINO, dot⟩ ++ Dirent.toBytes ⟨ROOTINO, dotdot⟩).getD j 0

def markUsed (d : Disk) (l : List ℕ) : Disk := l.foldl (fun d b => sb.setBit d b true) d

def emptyFs : Disk :=
  Function.update
    (markUsed sb (sb.setDinode zeroDisk ROOTINO (rootDinode sb)) (List.range (sb.datastart + 1)))
    sb.datastart rootBlock

end

section
variable {sb : Superblock}

theorem bit_markUsed (d : Disk) (l : List ℕ) (c : ℕ) :
    sb.bit (markUsed sb d l) c = (decide (c ∈ l) || sb.bit d c) := by
  induction l generalizing d with
  | nil => simp [markUsed]
  | cons b l ih =>
    change sb.bit (markUsed sb (sb.setBit d b true) l) c = _
    rw [ih]
    by_cases hc : c = b
    · subst hc
      simp [Superblock.bit_setBit_self]
    · simp [Superblock.bit_setBit_ne d hc, hc]

theorem Superblock.Layout.dinode_markUsed (L : sb.Layout) (d : Disk) (l : List ℕ) {i : ℕ}
    (hi : i < sb.ninodes) : sb.dinode (markUsed sb d l) i = sb.dinode d i := by
  induction l generalizing d with
  | nil => rfl
  | cons b l ih =>
    change sb.dinode (markUsed sb (sb.setBit d b true) l) i = _
    rw [ih, L.dinode_setBit d hi]

section
variable (L : sb.Layout) (hdata : 0 < sb.nblocks) (hle : sb.nblocks ≤ sb.size)
include L

theorem bit_emptyFs {c : ℕ} (hc : c < sb.size) :
    sb.bit (emptyFs sb) c = true ↔ c ≤ sb.datastart := by
  have hzero : sb.bit zeroDisk c = false := by
    simp [Superblock.bit, zeroDisk, ByteBlock.getBit, ByteBlock.fill]
  rw [emptyFs, L.bit_update _ le_rfl hc, bit_markUsed, L.bit_setDinode _ L.root, hzero]
  rw [Bool.or_false, decide_eq_true_iff, List.mem_range, Nat.lt_succ_iff]

theorem rootDinode_fits : (rootDinode sb).Fits := by
  have hlt := L.size
  refine ⟨show 2 * sizeofDirent < 2 ^ 32 by decide, ?_⟩
  intro k
  have hstart : sb.datastart ≤ sb.size := Nat.sub_le _ _
  change (if k = 0 then sb.datastart else 0) < 2 ^ 32
  split <;> omega

theorem dinode_emptyFs_root : sb.dinode (emptyFs sb) ROOTINO = rootDinode sb := by
  rw [emptyFs, L.dinode_update _ L.root le_rfl, L.dinode_markUsed _ _ L.root,
    Superblock.dinode_setDinode_self _ (rootDinode_fits L)]

theorem dinode_emptyFs_of_ne {i : ℕ} (hi : i < sb.ninodes) (hne : i ≠ ROOTINO) :
    (sb.dinode (emptyFs sb) i).type = 0 := by
  rw [emptyFs, L.dinode_update _ hi le_rfl, L.dinode_markUsed _ _ hi,
    Superblock.dinode_setDinode_ne _ hne]
  simp [Superblock.dinode, zeroDisk, Dinode.get, ByteBlock.getHalf, ByteBlock.byte, ByteBlock.fill]

theorem datastart_ne_zero : sb.datastart ≠ 0 :=
  Nat.ne_of_gt (lt_of_le_of_lt (Nat.zero_le _) L.bitmap)

theorem own_emptyFs {σ : ℕ × Slot} {b : ℕ} :
    own sb (sb.dinode (emptyFs sb)) (emptyFs sb) σ = some b ↔
      σ = (ROOTINO, .addr 0) ∧ b = sb.datastart := by
  obtain ⟨i, τ⟩ := σ
  have hroot := dinode_emptyFs_root L
  have h0 := datastart_ne_zero L
  constructor
  · intro h
    obtain ⟨hi, htype, href, hb⟩ := own_eq_some h
    have hi1 : i = ROOTINO := by
      by_contra hne
      exact htype (dinode_emptyFs_of_ne L hi hne)
    subst hi1
    rw [hroot] at href
    cases τ with
    | addr k =>
      change (if k = 0 then sb.datastart else 0) = b at href
      by_cases hk : k = 0
      · rw [if_pos hk] at href
        exact ⟨by rw [hk], href.symm⟩
      · rw [if_neg hk] at href
        exact absurd href.symm hb
    | entry j =>
      rw [Dinode.ref_entry_of_zero (by rfl)] at href
      exact absurd href.symm hb
  · rintro ⟨heq, rfl⟩
    obtain ⟨rfl, rfl⟩ := Prod.mk.inj heq
    have href : (sb.dinode (emptyFs sb) ROOTINO).ref (emptyFs sb) (.addr 0) = sb.datastart := by
      rw [hroot]
      rfl
    rw [own_of_ref L.root (by rw [hroot]; show T_DIR ≠ 0; decide) (by rw [href]; exact h0), href]

include hdata hle in
theorem blockInv_emptyFs : BlockInv sb (sb.dinode (emptyFs sb)) (emptyFs sb) := by
  have hlt : sb.datastart < sb.size := by
    rw [Superblock.datastart]
    omega
  have htype : ∀ i < sb.ninodes, (sb.dinode (emptyFs sb) i).type ≠ 0 → i = ROOTINO := by
    intro i hi ht
    by_contra hne
    exact ht (dinode_emptyFs_of_ne L hi hne)
  refine ⟨?_, ⟨?_, ?_⟩, ?_, ?_⟩
  · intro b hb
    exact (bit_emptyFs L (hb.trans hlt)).2 hb.le
  · intro σ τ b hσ hτ
    rw [((own_emptyFs L).1 hσ).1, ((own_emptyFs L).1 hτ).1]
  · intro b
    constructor
    · rintro ⟨⟨hge, hsize⟩, hbit⟩
      have hle := (bit_emptyFs L hsize).1 hbit
      exact ⟨_, (own_emptyFs L).2 ⟨rfl, le_antisymm hle hge⟩⟩
    · rintro ⟨σ, hσ⟩
      obtain ⟨-, rfl⟩ := (own_emptyFs L).1 hσ
      exact ⟨⟨le_rfl, hlt⟩, (bit_emptyFs L hlt).2 le_rfl⟩
  · intro i hi ht
    rw [htype i hi ht, dinode_emptyFs_root L]
    show 2 * sizeofDirent ≤ _
    decide
  · intro i hi ht bn hbn
    rw [htype i hi ht, dinode_emptyFs_root L] at hbn ⊢
    have hbn0 : bn = 0 := by
      have hsmall : bn * 1024 < 32 := hbn
      omega
    subst hbn0
    exact datastart_ne_zero L

theorem nodes_emptyFs_of_ne {i : ℕ} (hne : i ≠ ROOTINO) :
    (nodes sb (emptyFs sb) i).type = 0 ∧ (nodes sb (emptyFs sb) i).dents = [] := by
  rw [nodes]
  split
  · next hi =>
    have htype := dinode_emptyFs_of_ne L hi hne
    refine ⟨htype, if_neg ?_⟩
    rw [htype]
    decide
  · exact ⟨rfl, rfl⟩

theorem nodes_emptyFs_root : nodes sb (emptyFs sb) ROOTINO =
    ⟨T_DIR, 1, [⟨ROOTINO, dot⟩, ⟨ROOTINO, dotdot⟩]⟩ := by
  have hbyte : ∀ o < 2 * sizeofDirent,
      (rootDinode sb).byte (emptyFs sb) o = rootBlock.byte o := by
    intro o ho
    have hdiv : o / BSIZE = 0 := Nat.div_eq_of_lt (lt_trans ho (by decide))
    have hmod : o % BSIZE = o := Nat.mod_eq_of_lt (lt_trans ho (by decide))
    rw [Dinode.byte, hdiv, hmod]
    change (emptyFs sb sb.datastart).byte o = _
    rw [emptyFs, Function.update_self]
  have hdents : (rootDinode sb).dents (emptyFs sb) = [⟨ROOTINO, dot⟩, ⟨ROOTINO, dotdot⟩] := by
    have hbytes : ∀ k < 2, (rootDinode sb).bytes (emptyFs sb) (k * sizeofDirent) sizeofDirent =
        rootBlock.slice (k * sizeofDirent) sizeofDirent := by
      intro k hk
      refine List.map_congr_left fun r hr => ?_
      have hr' : r < 16 := List.mem_range.1 hr
      have ho : k * sizeofDirent + r < 2 * sizeofDirent := by
        change k * 16 + r < 32
        omega
      rw [hbyte _ ho]
    have hsize : (rootDinode sb).size / sizeofDirent = 2 :=
      show 2 * sizeofDirent / sizeofDirent = 2 by decide
    rw [Dinode.dents, hsize, show List.range 2 = [0, 1] from rfl, List.map_cons, List.map_cons,
      List.map_nil, Dinode.dent, Dinode.dent, hbytes 0 (by decide), hbytes 1 (by decide)]
    decide
  rw [nodes, if_pos L.root, dinode_emptyFs_root L, Dinode.node_dir rfl, hdents]
  rfl

include hdata hle in
theorem image_emptyFs : Image sb (emptyFs sb) := by
  refine ⟨blockInv_emptyFs L hdata hle, ?_⟩
  intro i de hde
  by_cases hi : i = ROOTINO
  · rw [hi, nodes_emptyFs_root L] at hde
    simp only [List.mem_cons, List.not_mem_nil, or_false] at hde
    rcases hde with rfl | rfl <;> exact L.root
  · rw [(nodes_emptyFs_of_ne L hi).2] at hde
    cases hde

end

def smallSb : Superblock := ⟨16, 10, 16, 1, 2, 3, 5⟩

theorem smallSb_layout : smallSb.Layout :=
  ⟨by decide, by decide, by decide, by decide, by decide⟩

theorem smallSb_image : Image smallSb (emptyFs smallSb) :=
  image_emptyFs smallSb_layout (by decide) (by decide)

end
end Xv6.Fs
