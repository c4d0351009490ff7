import Xv6.Fs.Calls
import Xv6.Fs.Content
import Xv6.Fs.Table

/-! # Directories

Reading, finding, entering and removing entries, as operations on the list of entries of a node.
-/

namespace Xv6.Fs
set_option autoImplicit false
open Prog (wp_bind wp_pure wp_read)

/-! ## Entries -/

namespace Dirent

def stored (de : Dirent) : Dirent := .ofBytes de.toBytes

theorem inum_stored {de : Dirent} (h : de.inum < 2 ^ 16) : de.stored.inum = de.inum := by
  change (UInt8.ofNat (de.inum % 256)).toNat +
    256 * (UInt8.ofNat (de.inum / 256 % 256)).toNat = de.inum
  rw [UInt8.toNat_ofNat', UInt8.toNat_ofNat']
  omega

theorem length_toBytes (de : Dirent) : de.toBytes.length = sizeofDirent := by
  simp [toBytes, sizeofDirent, DIRSIZ]

end Dirent

/-- The first entry with the name, from number `k` on: its number and the inode number in it. -/
def find (name : List UInt8) : ℕ → List Dirent → Option (ℕ × ℕ)
  | _, [] => none
  | k, de :: l =>
    if de.inum ≠ 0 ∧ namecmp name de.name then some (k, de.inum) else find name (k + 1) l

/-- The number of the first empty entry, from number `k` on, or the end of the list. -/
def slot : ℕ → List Dirent → ℕ
  | k, [] => k
  | k, de :: l => if de.inum = 0 then k else slot (k + 1) l

def putEntry (l : List Dirent) (k : ℕ) (de : Dirent) : List Dirent :=
  l.take k ++ de :: l.drop (k + 1)

theorem find_eq_some {name : List UInt8} {k j i : ℕ} {l : List Dirent}
    (h : find name k l = some (j, i)) :
    k ≤ j ∧ ∃ de, l[j - k]? = some de ∧ de.inum = i ∧ i ≠ 0 ∧ namecmp name de.name = true := by
  induction l generalizing k with
  | nil => cases h
  | cons de l ih =>
    rw [find] at h
    split at h
    · next hde =>
      cases h
      exact ⟨le_rfl, de, by rw [Nat.sub_self]; rfl, rfl, hde.1, hde.2⟩
    · obtain ⟨hle, de', hget, hrest⟩ := ih h
      refine ⟨by omega, de', ?_, hrest⟩
      rw [show j - k = j - (k + 1) + 1 by omega]
      exact hget

theorem getElem?_putEntry {l : List Dirent} {k : ℕ} (hk : k ≤ l.length) (de : Dirent) (i : ℕ) :
    (putEntry l k de)[i]? = if i = k then some de else l[i]? := by
  have hlen : (l.take k).length = k := by
    rw [List.length_take]
    omega
  rw [putEntry]
  rcases Nat.lt_trichotomy i k with hi | rfl | hi
  · rw [List.getElem?_append_left (by omega), if_neg (by omega), List.getElem?_take_of_lt hi]
  · rw [List.getElem?_append_right (by omega), hlen, Nat.sub_self, if_pos rfl]
    rfl
  · rw [List.getElem?_append_right (by omega), hlen, if_neg (by omega),
      show i - k = i - (k + 1) + 1 by omega, List.getElem?_cons_succ, List.getElem?_drop]
    congr 1
    omega

theorem slot_le (k : ℕ) (l : List Dirent) : k ≤ slot k l ∧ slot k l ≤ k + l.length := by
  induction l generalizing k with
  | nil => exact ⟨le_rfl, le_rfl⟩
  | cons de l ih =>
    rw [slot]
    split
    · simp
    · have := ih (k + 1)
      rw [List.length_cons]
      omega

/-! ## The loops over a directory -/

/-- Every panic may occur but the one for a block that is freed twice. -/
def Lenient (E : Failure → Prop) : Prop := ∀ msg, msg ≠ "freeing free block" → E (.panic msg)

section
variable {sb : Superblock} {h : InodeId → ℕ} {k : InodeId} {s s' : State} {E : Failure → Prop}

theorem Core.node (hc : Core sb (sb.dinode s.disk) h s) (hpos : 0 < h k)
    (hvalid : (s.inode k).valid = true) :
    nodes sb s.disk (s.inode k).inum = (s.inode k).copy.node s.disk := by
  rw [nodes, if_pos (hc.inum k hpos), (hc.valid k hpos hvalid).2]

section
variable (hc : Core sb (sb.dinode s.disk) h s) (hpos : 0 < h k) (hvalid : (s.inode k).valid = true)

include hc hpos hvalid

theorem Core.copy_size_le : (s.inode k).copy.size ≤ MAXFILE * BSIZE := by
  obtain ⟨htype, hcopy⟩ := hc.valid k hpos hvalid
  rw [hcopy]
  exact hc.blocks.size _ (hc.inum k hpos) htype

theorem Core.copy_mapped {o : ℕ} (ho : o < (s.inode k).copy.size) :
    (s.inode k).copy.blk s.disk (o / BSIZE) ≠ 0 := by
  obtain ⟨htype, hcopy⟩ := hc.valid k hpos hvalid
  rw [hcopy] at ho ⊢
  exact hc.blocks.full _ (hc.inum k hpos) htype _ (lt_of_le_of_lt (Nat.div_mul_le_self _ _) ho)

variable {j n : ℕ}

theorem wp_readDirent (hj : j ≤ entries (s.inode k).copy.size) {msg : String} (hE : E (.panic msg))
    {Q : Dirent → State → Prop}
    (hQ : j < (s.inode k).copy.size / sizeofDirent → Q ((s.inode k).copy.dent s.disk j) s) :
    (readDirent sb k (j * sizeofDirent) msg).wp E Q s := by
  have hmax := hc.copy_size_le hpos hvalid
  simp only [readDirent, wp_bind]
  refine (wp_readi_all hmax (fun o _ _ ho => hc.copy_mapped hpos hvalid ho)).mono ?_
  rintro ⟨r, l⟩ s' ⟨rfl, hr⟩
  have hbound : j * sizeofDirent + sizeofDirent < 2 ^ 32 := by
    simp only [entries, sizeofDirent, MAXFILE, NDIRECT, NINDIRECT, BSIZE] at hj hmax ⊢
    omega
  obtain ⟨rfl, rfl⟩ := Prod.mk.inj (hr hbound)
  by_cases hlt : j < (s'.inode k).copy.size / sizeofDirent
  · have hmin : min sizeofDirent ((s'.inode k).copy.size - j * sizeofDirent) = sizeofDirent := by
      simp only [sizeofDirent] at hlt ⊢
      omega
    rw [hmin, if_neg (not_not.mpr rfl)]
    exact hQ hlt
  · rw [if_pos]
    · exact hE
    · simp only [sizeofDirent] at hlt ⊢
      omega

omit hc hpos hvalid in
theorem drop_dents {d : Disk} {x : Dinode} (hj : j < x.size / sizeofDirent) :
    (x.dents d).drop j = x.dent d j :: (x.dents d).drop (j + 1) := by
  have hlen : (x.dents d).length = x.size / sizeofDirent := Dinode.length_dents
  rw [List.drop_eq_getElem_cons (by omega)]
  congr 1
  exact (List.getElem_eq_iff _).mpr (Dinode.getElem?_dents hj)

omit hc hpos hvalid in
theorem drop_dents_of_le {d : Disk} {x : Dinode} (hj : entries x.size ≤ j) :
    (x.dents d).drop j = [] := by
  refine List.drop_eq_nil_of_le (le_trans ?_ hj)
  rw [Dinode.length_dents]
  refine Nat.div_le_div_right ?_
  have : 0 < sizeofDirent := by decide
  omega

/-! The loops look at all entries; a directory that ends within an entry makes them panic. -/

section
variable (hn : n = entries (s.inode k).copy.size - j)
include hn

theorem wp_dirlookupLoop {name : List UInt8} (hE : E (.panic "dirlookup read"))
    {Q : Option (ℕ × ℕ) → State → Prop}
    (hQ : Q (find name j (((s.inode k).copy.dents s.disk).drop j)) s) :
    (dirlookupLoop sb k name n j).wp E Q s := by
  induction n generalizing j with
  | zero =>
    rw [drop_dents_of_le (by omega)] at hQ
    exact hQ
  | succ n ih =>
    simp only [dirlookupLoop, wp_bind]
    refine wp_readDirent hc hpos hvalid (by omega) hE ?_
    intro hj
    rw [drop_dents hj, find] at hQ
    split
    · next hde =>
      rw [if_pos hde] at hQ
      exact hQ
    · next hde =>
      rw [if_neg hde] at hQ
      exact ih (by omega) hQ

theorem wp_dirlinkLoop (hE : E (.panic "dirlink read")) {Q : ℕ → State → Prop}
    (hQ : Q (slot j (((s.inode k).copy.dents s.disk).drop j)) s) :
    (dirlinkLoop sb k n j).wp E Q s := by
  induction n generalizing j with
  | zero =>
    rw [drop_dents_of_le (by omega)] at hQ
    exact hQ
  | succ n ih =>
    simp only [dirlinkLoop, wp_bind]
    refine wp_readDirent hc hpos hvalid (by omega) hE ?_
    intro hj
    rw [drop_dents hj, slot] at hQ
    split
    · next hde =>
      rw [if_pos hde] at hQ
      exact hQ
    · next hde =>
      rw [if_neg hde] at hQ
      exact ih (by omega) hQ

theorem wp_isdiremptyLoop (hE : E (.panic "isdirempty: readi")) {Q : Bool → State → Prop}
    (hQ : Q ((((s.inode k).copy.dents s.disk).drop j).all fun de => de.inum = 0) s) :
    (isdiremptyLoop sb k n j).wp E Q s := by
  induction n generalizing j with
  | zero =>
    rw [drop_dents_of_le (by omega)] at hQ
    exact hQ
  | succ n ih =>
    simp only [isdiremptyLoop, wp_bind]
    refine wp_readDirent hc hpos hvalid (by omega) hE ?_
    intro hj
    rw [drop_dents hj, List.all_cons] at hQ
    split
    · next hde =>
      rw [decide_eq_false hde, Bool.false_and] at hQ
      exact hQ
    · next hde =>
      rw [decide_eq_true (not_not.mp hde), Bool.true_and] at hQ
      exact ih (by omega) hQ

end

end

/-! ## Writing an entry -/

theorem dents_written {d d' : Disk} {x y : Dinode} {j : ℕ} {de : Dirent}
    (hj : j ≤ x.size / sizeofDirent)
    (hsize : y.size = max x.size (j * sizeofDirent + sizeofDirent))
    (hnew : ∀ r < sizeofDirent, y.byte d' (j * sizeofDirent + r) = (de.toBytes.getD r 0).toNat)
    (hold : ∀ o < x.size, o < j * sizeofDirent ∨ j * sizeofDirent + sizeofDirent ≤ o →
      y.byte d' o = x.byte d o) : y.dents d' = putEntry (x.dents d) j de.stored := by
  have hlen : (x.dents d).length = x.size / sizeofDirent := Dinode.length_dents
  have hlen' : (y.dents d').length = y.size / sizeofDirent := Dinode.length_dents
  refine List.ext_getElem? ?_
  intro i
  rw [getElem?_putEntry (by omega)]
  by_cases hi : i = j
  · subst hi
    rw [if_pos rfl, Dinode.getElem?_dents]
    · refine congrArg (fun l => some (Dirent.ofBytes l)) ?_
      refine List.ext_getElem? ?_
      intro r
      by_cases hr : r < sizeofDirent
      · rw [Dinode.bytes, List.getElem?_map, List.getElem?_range hr]
        have hr' : r < de.toBytes.length := by
          rw [de.length_toBytes]
          exact hr
        rw [Option.map_some, hnew r hr, UInt8.ofNat_toNat, List.getD_eq_getElem _ _ hr',
          List.getElem?_eq_getElem hr']
      · rw [List.getElem?_eq_none, List.getElem?_eq_none]
        · rw [de.length_toBytes]
          omega
        · rw [Dinode.bytes, List.length_map, List.length_range]
          omega
    · rw [hsize]
      simp only [sizeofDirent] at hj ⊢
      omega
  · rw [if_neg hi]
    by_cases hlt : i < x.size / sizeofDirent
    · rw [Dinode.getElem?_dents hlt, Dinode.getElem?_dents]
      · refine congrArg (fun l => some (Dirent.ofBytes l)) (Dinode.bytes_congr ?_)
        intro o h1 h2
        simp only [sizeofDirent] at hlt h1 h2 hold
        exact hold o (by omega) (by omega)
      · rw [hsize]
        simp only [sizeofDirent] at hlt ⊢
        omega
    · have hend : y.size / sizeofDirent ≤ i := by
        rw [hsize]
        simp only [sizeofDirent] at hlt hj ⊢
        omega
      rw [List.getElem?_eq_none (by omega), List.getElem?_eq_none (by omega)]

variable {Q : Bool → State → Prop}

theorem wp_writeDirent (L : sb.Layout) (hc : Core sb (sb.dinode s.disk) h s) (hpos : 0 < h k)
    (hvalid : (s.inode k).valid = true) (htype : (s.inode k).copy.type = T_DIR) {j : ℕ}
    (hj : j ≤ (s.inode k).copy.size / sizeofDirent) {de : Dirent}
    (hfalse : ∀ s', Core sb (sb.dinode s'.disk) h s' → Frame sb k s s' →
      nodes sb s'.disk = nodes sb s.disk → Q false s')
    (htrue : ∀ s', Core sb (sb.dinode s'.disk) h s' → Frame sb k s s' →
      nodes sb s'.disk = Function.update (nodes sb s.disk) (s.inode k).inum
        { nodes sb s.disk (s.inode k).inum with
          dents := putEntry (nodes sb s.disk (s.inode k).inum).dents j de.stored } → Q true s') :
    (writeDirent sb k (j * sizeofDirent) de).wp E Q s := by
  have hd := hc.dirty hpos hvalid
  simp only [writeDirent, wp_bind, wp_pure]
  refine wp_writei L hc hpos hvalid ?_ ?_
  · exact fun _ => hfalse s hc (.refl _ _ _) rfl
  · intro tot lim s' hc' hf hw
    have hvalid' : (s'.inode k).valid = true := by
      rw [hf.slot]
      exact hvalid
    have hnode' := hc'.node hpos hvalid'
    rw [hf.inum] at hnode'
    have htype' : (s'.inode k).copy.type = T_DIR := by
      rw [hw.copy]
      exact htype
    have hsize : (s'.inode k).copy.size = max (s.inode k).copy.size (j * sizeofDirent + tot) := by
      rw [hw.copy]
    have hnlink : (s'.inode k).copy.nlink = (s.inode k).copy.nlink := by
      rw [hw.copy]
    have hlim := hw.stop.lim_eq
    by_cases htot : tot = sizeofDirent
    · subst htot
      rw [decide_eq_true rfl]
      refine htrue s' hc' hf ?_
      rw [hf.nodes hd, hnode', Dinode.node_dir htype', hc.node hpos hvalid, Dinode.node_dir htype,
        hnlink, dents_written hj hsize ?_ ?_]
      · intro r hr
        rw [hw.written _ (by omega) (by omega), Nat.add_sub_cancel_left]
      · intro o ho hrange
        exact hw.kept o ho (by omega)
    · have hzero : tot = 0 := by
        have := hw.early
        have := hw.le
        simp only [IsPiece, sizeofDirent, BSIZE] at *
        omega
      subst hzero
      rw [decide_eq_false (by decide)]
      refine hfalse s' hc' hf ?_
      have hdents : (s'.inode k).copy.dents s'.disk = (s.inode k).copy.dents s.disk := by
        refine Dinode.dents_congr ?_ ?_
        · rw [hsize, Nat.add_zero]
          exact Nat.max_eq_left hw.start
        · intro o ho
          exact hw.kept o ho (by omega)
      rw [hf.nodes hd, hnode', Dinode.node_dir htype', hnlink, hdents, ← Dinode.node_dir htype,
        ← hc.node hpos hvalid, Function.update_eq_self]

/-! ## The functions on directories -/

section
variable (hc : Core sb (sb.dinode s.disk) h s) (hpos : 0 < h k) (hvalid : (s.inode k).valid = true)
  (htype : (s.inode k).copy.type = T_DIR)
include hc hpos hvalid htype

theorem Core.dents_eq :
    (nodes sb s.disk (s.inode k).inum).dents = (s.inode k).copy.dents s.disk := by
  rw [hc.node hpos hvalid, Dinode.node_dir htype]

theorem wp_isdirempty (hE : Lenient E)
    (hQ : Q (((nodes sb s.disk (s.inode k).inum).dents.drop 2).all fun de => de.inum = 0) s) :
    (isdirempty sb k).wp E Q s := by
  rw [hc.dents_eq hpos hvalid htype] at hQ
  exact wp_isdiremptyLoop hc hpos hvalid rfl (hE _ (by decide)) hQ

end

theorem wp_dirlookup (hw : Wf sb h s) (hpos : 0 < h k) (hvalid : (s.inode k).valid = true)
    (hE : Lenient E) {name : List UInt8} {Q : Option (InodeId × ℕ) → State → Prop}
    (hnone : (s.inode k).copy.type = T_DIR →
      find name 0 (nodes sb s.disk (s.inode k).inum).dents = none → Q none s)
    (hsome : ∀ k' j i s', (s.inode k).copy.type = T_DIR →
      find name 0 (nodes sb s.disk (s.inode k).inum).dents = some (j, i) →
      Opened sb h k' s s' → (s'.inode k').inum = i → Q (some (k', j)) s') :
    (dirlookup sb k name).wp E Q s := by
  have hdev := hw.core.dev k hpos
  simp only [dirlookup, inode, wp_bind, wp_read]
  split
  · exact hE _ (by decide)
  · next htype =>
    have htype := not_not.mp htype
    have hdents := hw.core.dents_eq hpos hvalid htype
    rw [wp_bind]
    refine wp_dirlookupLoop hw.core hpos hvalid (Nat.sub_zero _).symm (hE _ (by decide)) ?_
    rw [List.drop_zero, ← hdents]
    split
    · next j i hfind =>
      rw [wp_bind, hdev]
      have hi : i < sb.ninodes := by
        obtain ⟨-, de, hget, rfl, -⟩ := find_eq_some hfind
        exact hw.dirs _ de (List.mem_of_getElem? hget)
      refine wp_iget hw.core hi (hE _ (by decide)) ?_
      intro k' s' ho hinum
      exact hsome k' j i s' htype hfind ho hinum
    · next hfind => exact hnone htype hfind

theorem mem_putEntry {l : List Dirent} {j : ℕ} {e de : Dirent} (h : de ∈ putEntry l j e) :
    de = e ∨ de ∈ l := by
  rw [putEntry, List.mem_append, List.mem_cons] at h
  rcases h with h | h | h
  · exact .inr (List.mem_of_mem_take h)
  · exact .inl h
  · exact .inr (List.mem_of_mem_drop h)

theorem wp_putDirent (L : sb.Layout) (hw : Wf sb h s) (hpos : 0 < h k)
    (hvalid : (s.inode k).valid = true) (htype : (s.inode k).copy.type = T_DIR) {j : ℕ}
    (hj : j ≤ (s.inode k).copy.size / sizeofDirent) {de : Dirent} (hde : de.inum < sb.ninodes)
    (hQ : ∀ b s', Wf sb h s' → Keeps h s s' → Q b s') :
    (writeDirent sb k (j * sizeofDirent) de).wp E Q s := by
  refine wp_writeDirent L hw.core hpos hvalid htype hj ?_ ?_
  · intro s' hc hf hnodes
    exact hQ false s' ⟨hc, by rw [hnodes]; exact hw.dirs⟩ (.of_frame hf)
  · intro s' hc hf hnodes
    refine hQ true s' ⟨hc, ?_⟩ (.of_frame hf)
    rw [hnodes]
    refine hw.dirs.update fun e he => ?_
    rcases mem_putEntry he with rfl | he
    · rw [Dirent.inum_stored (lt_of_lt_of_le hde L.ninodes)]
      exact hde
    · exact hw.dirs _ e he

theorem wp_dirlink (L : sb.Layout) (hw : Wf sb h s) (hpos : 0 < h k)
    (hvalid : (s.inode k).valid = true) (hE : Lenient E) {name : List UInt8} {inum : ℕ}
    (hinum : inum < sb.ninodes) (hQ : ∀ b s', Wf sb h s' → Keeps h s s' → Q b s') :
    (dirlink sb k name inum).wp E Q s := by
  simp only [dirlink, wp_bind]
  refine wp_dirlookup hw hpos hvalid hE ?_ ?_
  · intro htype _
    have hdents := hw.core.dents_eq hpos hvalid htype
    simp only [inode, wp_bind, wp_read]
    refine wp_dirlinkLoop hw.core hpos hvalid (Nat.sub_zero _).symm (hE _ (by decide)) ?_
    rw [List.drop_zero, ← hdents]
    have hslot : slot 0 (nodes sb s.disk (s.inode k).inum).dents ≤
        (s.inode k).copy.size / sizeofDirent := by
      have hle := (slot_le 0 (nodes sb s.disk (s.inode k).inum).dents).2
      rw [hdents, Dinode.length_dents] at hle
      rw [hdents]
      omega
    exact wp_putDirent L hw hpos hvalid htype hslot hinum hQ
  · intro k' j i s' _ _ ho _
    have hw' := ho.wf hw.dirs
    rw [wp_bind]
    refine wp_iput L hw'.core ?_
    intro s'' hp
    exact hQ false s'' (hp.wf hw'.dirs) (ho.keeps.trans hp.keeps)

end
end Xv6.Fs
