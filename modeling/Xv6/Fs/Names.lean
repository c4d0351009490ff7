import Xv6.Fs.Walk

/-! # Creating, linking and unlinking files

`create`, `sys_link` and `sys_unlink` keep the file system well-formed and the references counted,
on every path through them.
-/

namespace Xv6.Fs
set_option autoImplicit false
open Function (update update_self update_eq_self)
open Prog (wp_bind wp_read wp_pure)

section
variable {sb : Superblock} {h : InodeId → ℕ} {k dp ip cwd : InodeId} {s : State}
  {E : Failure → Prop} {name path : List UInt8} {type : BitVec 16}

/-! ## Changing the fields of an inode -/

theorem wp_setFields (L : sb.Layout) {f : Dinode → Dinode} (hw : Wf sb h s) (hpos : 0 < h k)
    (hvalid : (s.inode k).valid = true) (htype : ∀ c, (f c).type = c.type)
    (hsize : ∀ c, (f c).size = c.size) (haddrs : ∀ c, (f c).addrs = c.addrs)
    {Q : Unit → State → Prop} (hQ : ∀ s', Wf sb h s' → Keeps h s s' → Q () s') :
    (setCopy k f).wp E (fun _ => (iupdate sb k).wp E Q) s := by
  set c := (s.inode k).copy with hcdef
  have hd := hw.core.dirty hpos hvalid
  have hfull : ∀ bn, bn * BSIZE < (f c).size → c.blk s.disk bn ≠ 0 := by
    intro bn hbn
    rw [hsize] at hbn
    have hmapped := hw.core.copy_mapped hpos hvalid hbn
    rwa [Nat.mul_div_cancel _ (by decide : 0 < BSIZE)] at hmapped
  have hmax : (f c).size ≤ MAXFILE * BSIZE := by
    rw [hsize]
    exact hw.core.copy_size_le hpos hvalid
  obtain ⟨hd1, hf1⟩ := hd.setCopy (htype c) (haddrs c) hmax hfull
  rw [setCopy, setInode, Prog.wp_modify]
  generalize hs1 : ({ s with
    inode := update s.inode k { s.inode k with copy := f c } } : State) = s1 at hd1 hf1
  have hcopy1 : (s1.inode k).copy = f c := by
    rw [← hs1]
    dsimp only
    rw [update_self]
  have hdisk1 : s1.disk = s.disk := by rw [← hs1]
  refine wp_iupdate ?_
  obtain ⟨hc2, hf2, hdin2⟩ := hd1.iupdate L
  have hf := hf1.trans hf2
  have hbyte : ∀ o < c.size,
      (f c).byte (sb.setDinode s1.disk (s1.inode k).inum (s1.inode k).copy) o =
        c.byte s.disk o := by
    intro o ho
    have hblk : (s1.inode k).copy.blk s1.disk (o / BSIZE) ≠ 0 := by
      rw [hcopy1, hdisk1, Dinode.blk_congr (haddrs c)]
      exact hw.core.copy_mapped hpos hvalid ho
    have hsame := hd1.byte_iupdate L hblk
    rw [hcopy1, hdisk1, Dinode.byte_congr (haddrs c) (d := s.disk)] at hsame
    rw [hcopy1, hdisk1]
    exact hsame
  -- the entries of a directory stay as they are
  have hnode :
      nodes sb (sb.setDinode s1.disk (s1.inode k).inum (s1.inode k).copy) (s.inode k).inum =
      { nodes sb s.disk (s.inode k).inum with nlink := (f c).nlink } := by
    have hdin : sb.dinode (sb.setDinode s1.disk (s1.inode k).inum (s1.inode k).copy)
        (s.inode k).inum = f c := by
      rw [hdin2, ← hf1.inum, view_self, hcopy1]
    rw [nodes, if_pos hd.inum_lt, hdin, hw.core.node hpos hvalid, Dinode.node, Dinode.node, htype]
    rw [Dinode.dents_congr (hsize c) hbyte]
  refine hQ _ ⟨hc2, ?_⟩ (.of_frame hf)
  rw [hf.nodes hd, hnode]
  exact hw.dirs.update (hw.dirs _)

theorem wp_setNlink (L : sb.Layout) (hw : Wf sb h s) (hpos : 0 < h k)
    (hvalid : (s.inode k).valid = true) (g : BitVec 16 → BitVec 16) {Q : Unit → State → Prop}
    (hQ : ∀ s', Wf sb h s' → Keeps h s s' → Q () s') :
    (setCopy k fun c => { c with nlink := g c.nlink }).wp E (fun _ => (iupdate sb k).wp E Q) s :=
  wp_setFields L hw hpos hvalid (by intro; rfl) (by intro; rfl) (by intro; rfl) hQ

/-! ## `create` -/

section
variable (L : sb.Layout)
include L

theorem wp_createLink (hE : Lenient E) (hw : Wf sb h s) (hdp : 0 < h dp) (hip : 0 < h ip)
    (hvdp : (s.inode dp).valid = true) (hvip : (s.inode ip).valid = true) {Q : Bool → State → Prop}
    (hQ : ∀ b s', Wf sb h s' → Keeps h s s' → Q b s') :
    (createLink sb dp ip name type).wp E Q s := by
  have hi := hw.core.inum ip hip
  have hdir := hw.core.inum dp hdp
  simp only [createLink, inode, wp_bind, wp_read]
  split
  · rw [wp_bind]
    refine wp_dirlink L hw hip hvip hE hi ?_
    intro b s1 hw1 hkeep1
    cases b with
    | false =>
      rw [if_neg (by simp)]
      exact hQ false s1 hw1 hkeep1
    | true =>
      rw [if_pos rfl, wp_bind]
      refine wp_dirlink L hw1 hip (hkeep1.valid ip hip hvip) hE hdir ?_
      intro b s2 hw2 hkeep2
      have hkeep := hkeep1.trans hkeep2
      cases b with
      | false =>
        rw [if_neg (by simp)]
        exact hQ false s2 hw2 hkeep
      | true =>
        rw [if_pos rfl]
        refine wp_dirlink L hw2 hdp (hkeep.valid dp hdp hvdp) hE hi ?_
        exact fun b s3 hw3 hkeep3 => hQ b s3 hw3 (hkeep.trans hkeep3)
  · exact wp_dirlink L hw hdp hvdp hE hi hQ

theorem wp_createFail (hw : Wf sb (h + one dp + one ip) s) (hvip : (s.inode ip).valid = true) :
    (createFail sb dp ip).wp E (fun r => Wf sb (h + refs r)) s := by
  simp only [createFail, wp_bind]
  refine wp_setNlink L hw pos_one hvip (fun _ => 0) ?_
  intro s1 hw1 _
  refine wp_iunlockput L hw1 ?_
  intro s2 hw2 _
  refine wp_iunlockput L hw2 ?_
  exact fun s3 hw3 _ => hw3.refs_none

theorem wp_createNew (hE : Lenient E) {major minor : BitVec 16}
    (hw : Wf sb (h + one dp + one ip) s) (hvdp : (s.inode dp).valid = true) :
    (createNew sb dp ip name type major minor).wp E (fun r => Wf sb (h + refs r)) s := by
  have hdp : 0 < (h + one dp + one ip) dp := pos_add pos_one
  simp only [createNew, wp_bind]
  refine wp_ilock hw.core pos_one (fun _ => hE _ (by decide)) ?_
  intro htype
  have hvip : ((s.load sb ip).inode ip).valid = true := congrArg Inode.valid load_self
  refine wp_setFields L (hw.load pos_one htype) pos_one hvip (by intro; rfl) (by intro; rfl)
    (by intro; rfl) ?_
  intro s1 hw1 hkeep1
  have hvdp1 := (Keeps.load.trans hkeep1).valid dp hdp hvdp
  have hvip1 := hkeep1.valid ip pos_one hvip
  refine wp_createLink L hE hw1 hdp pos_one hvdp1 hvip1 ?_
  intro b s2 hw2 hkeep2
  -- the parent is put at the end
  have hend : ∀ t, Wf sb (h + one dp + one ip) t →
      (iunlockput sb dp).wp E (fun _ => Wf sb (h + refs (some ip))) t := by
    intro t hwt
    rw [add_right_comm] at hwt
    exact wp_iunlockput L hwt fun t' hwt' _ => hwt'
  cases b with
  | false =>
    rw [if_neg (by simp)]
    exact wp_createFail L hw2 (hkeep2.valid ip pos_one hvip1)
  | true =>
    rw [if_pos rfl]
    split
    · simp only [wp_bind]
      refine wp_setNlink L hw2 hdp (hkeep2.valid dp hdp hvdp1) (· + 1) ?_
      exact fun s3 hw3 _ => hend s3 hw3
    · rw [wp_bind]
      exact hend s2 hw2

theorem wp_create (hE : Lenient E) {major minor : BitVec 16} (hw : Wf sb h s) (hpos : 0 < h cwd) :
    (create sb cwd path type major minor).wp E (fun r => Wf sb (h + refs r)) s := by
  rw [create, nameiparent, wp_bind]
  refine (wp_namex L hE hw hpos).mono ?_
  intro r s1 hr
  cases r with
  | none => exact hr.wf
  | some p =>
    obtain ⟨dp, name⟩ := p
    have hw1 : Wf sb (h + one dp) s1 := hr.wf
    obtain ⟨hvdp, -⟩ := hr.dir dp name rfl rfl
    simp only [wp_bind]
    refine wp_ilock_valid hw1.core pos_one hvdp ?_
    refine wp_dirlookup hw1 pos_one hvdp hE ?_ ?_
    · -- the name is new
      intro _ _
      simp only [inode, wp_bind, wp_read]
      rw [hw1.core.dev dp pos_one]
      refine wp_ialloc L hw1.core (hE _ (by decide)) ?_ ?_
      · dsimp only
        rw [wp_bind]
        exact wp_iunlockput L hw1 fun s2 hw2 _ => hw2.refs_none
      · intro i ip d s2 _ _ _ hnodes ho _
        refine wp_createNew L hE ⟨ho.core, ?_⟩ (ho.keeps.valid dp pos_one hvdp)
        rw [ho.disk, hnodes]
        exact hw1.dirs.update fun _ hde => by cases hde
    · intro ip j i s2 _ _ ho _
      have hw2 := ho.wf hw1.dirs
      rw [add_right_comm] at hw2
      simp only [wp_bind]
      refine wp_iunlockput L hw2 ?_
      intro s3 hw3 _
      refine wp_ilock hw3.core pos_one (fun _ => hE _ (by decide)) ?_
      intro htype
      have hw4 := hw3.load pos_one htype
      simp only [inode, wp_read]
      split
      · exact hw4
      · rw [wp_bind]
        exact wp_iunlockput L hw4 fun s5 hw5 _ => hw5.refs_none

/-! ## `link` -/

theorem wp_linkBad (hE : Lenient E) (hw : Wf sb (h + one ip) s) :
    (linkBad sb ip).wp E (fun _ => Wf sb h) s := by
  simp only [linkBad, wp_bind]
  refine wp_ilock hw.core pos_one (fun _ => hE _ (by decide)) ?_
  intro htype
  refine wp_setNlink L (hw.load pos_one htype) pos_one (congrArg Inode.valid load_self) (· - 1) ?_
  intro s1 hw1 _
  exact wp_iunlockput L hw1 fun s2 hw2 _ => hw2

theorem wp_linkNew (hE : Lenient E) (hw : Wf sb (h + one ip) s) (hpos : 0 < h cwd) :
    (linkNew sb cwd ip path).wp E (fun _ => Wf sb h) s := by
  rw [linkNew, nameiparent, wp_bind]
  refine (wp_namex L hE hw (pos_add hpos)).mono ?_
  intro r s1 hr
  cases r with
  | none => exact wp_linkBad L hE hr.wf_none
  | some p =>
    obtain ⟨dp, name⟩ := p
    have hw1 : Wf sb (h + one ip + one dp) s1 := hr.wf
    obtain ⟨hvdp, -⟩ := hr.dir dp name rfl rfl
    -- the count of `ip` is set back
    have hbad : ∀ t, Wf sb (h + one ip + one dp) t →
        (iunlockput sb dp).wp E (fun _ => (linkBad sb ip).wp E fun _ => Wf sb h) t :=
      fun t hwt => wp_iunlockput L hwt fun t' hwt' _ => wp_linkBad L hE hwt'
    dsimp only
    rw [wp_bind]
    refine wp_ilock_valid hw1.core pos_one hvdp ?_
    rw [inode, wp_bind, wp_read, inode, wp_bind, wp_read]
    have hdev : (s1.inode dp).dev = (s1.inode ip).dev := by
      rw [hw1.core.dev dp pos_one, hw1.core.dev ip (pos_add pos_one)]
    rw [if_neg (not_not.mpr hdev), wp_bind]
    refine wp_dirlink L hw1 pos_one hvdp hE (hw1.core.inum ip (pos_add pos_one)) ?_
    intro b s2 hw2 _
    cases b with
    | false =>
      rw [if_neg (by simp), wp_bind]
      exact hbad s2 hw2
    | true =>
      rw [if_pos rfl, wp_bind]
      refine wp_iunlockput L hw2 ?_
      intro s3 hw3 _
      rw [wp_bind]
      refine wp_iput L hw3.core ?_
      exact fun s4 hp => hp.wf hw3.dirs

theorem wp_link (hE : Lenient E) {old new : List UInt8} (hw : Wf sb h s) (hpos : 0 < h cwd) :
    (link sb cwd old new).wp E (fun _ => Wf sb h) s := by
  simp only [link, namei, wp_bind]
  refine (wp_namex L hE hw hpos).mono ?_
  intro r s1 hr
  rw [wp_pure]
  cases r with
  | none => exact hr.wf_none
  | some p =>
    obtain ⟨ip, name'⟩ := p
    have hw1 : Wf sb (h + one ip) s1 := hr.wf
    simp only [Option.map_some, wp_bind]
    refine wp_ilock hw1.core pos_one (fun _ => hE _ (by decide)) ?_
    intro htype
    have hw2 := hw1.load pos_one htype
    simp only [inode, wp_read]
    split
    · -- directories are not linked
      rw [wp_bind]
      exact wp_iunlockput L hw2 fun s3 hw3 _ => hw3
    · simp only [wp_bind]
      refine wp_setNlink L hw2 pos_one (congrArg Inode.valid load_self) (· + 1) ?_
      intro s3 hw3 _
      refine wp_iunlock hw3.core pos_one ?_
      exact wp_linkNew L hE hw3 hpos

/-! ## `unlink` -/

theorem wp_unlinkEntry (hE : Lenient E) {j : ℕ} (hw : Wf sb (h + one dp + one ip) s)
    (hvdp : (s.inode dp).valid = true) (hvip : (s.inode ip).valid = true)
    (htdp : (s.inode dp).copy.type = T_DIR) (hj : j ≤ (s.inode dp).copy.size / sizeofDirent) :
    (unlinkEntry sb dp ip j type).wp E (fun _ => Wf sb h) s := by
  have hdp : 0 < (h + one dp + one ip) dp := pos_add pos_one
  rw [unlinkEntry, wp_bind]
  refine wp_putDirent L hw hdp hvdp htdp hj (lt_of_le_of_lt (Nat.zero_le _) L.root) ?_
  intro b s1 hw1 hkeep1
  cases b with
  | false =>
    rw [if_neg (by simp)]
    exact hE _ (by decide)
  | true =>
    rw [if_pos rfl]
    -- the references are given up at the end
    have hend : ∀ t, Wf sb (h + one dp + one ip) t → (t.inode ip).valid = true →
        (iunlockput sb dp).wp E (fun _ => (setCopy ip fun c => { c with nlink := c.nlink - 1 }).wp E
          fun _ => (iupdate sb ip).wp E fun _ => (iunlockput sb ip).wp E fun _ => Wf sb h) t := by
      intro t hwt hv
      rw [add_right_comm] at hwt
      refine wp_iunlockput L hwt ?_
      intro s3 hw3 hkeep3
      refine wp_setNlink L hw3 pos_one (hkeep3.valid ip pos_one hv) (· - 1) ?_
      intro s4 hw4 _
      exact wp_iunlockput L hw4 fun s5 hw5 _ => hw5
    have hvip1 := hkeep1.valid ip pos_one hvip
    split
    · simp only [wp_bind]
      refine wp_setNlink L hw1 hdp (hkeep1.valid dp hdp hvdp) (· - 1) ?_
      exact fun s2 hw2 hkeep2 => hend s2 hw2 (hkeep2.valid ip pos_one hvip1)
    · simp only [wp_bind]
      exact hend s1 hw1 hvip1

theorem wp_unlinkFound (hE : Lenient E) {j : ℕ} (hw : Wf sb (h + one dp + one ip) s)
    (hvdp : (s.inode dp).valid = true) (htdp : (s.inode dp).copy.type = T_DIR)
    (hj : j ≤ (s.inode dp).copy.size / sizeofDirent) :
    (unlinkFound sb dp ip j).wp E (fun _ => Wf sb h) s := by
  have hdp : 0 < (h + one dp + one ip) dp := pos_add pos_one
  simp only [unlinkFound, wp_bind]
  refine wp_ilock hw.core pos_one (fun _ => hE _ (by decide)) ?_
  intro htype
  have hw1 := hw.load pos_one htype
  have hvip : ((s.load sb ip).inode ip).valid = true := congrArg Inode.valid load_self
  have hkeep : Keeps (h + one dp + one ip) s (s.load sb ip) := .load
  have hvdp1 := hkeep.valid dp hdp hvdp
  have hcopy : ((s.load sb ip).inode dp).copy = (s.inode dp).copy := by
    rw [(hw1.core.valid dp hdp hvdp1).2, (hw.core.valid dp hdp hvdp).2, hkeep.inum dp hdp,
      load_disk]
  simp only [inode, wp_read]
  split
  · exact hE _ (by decide)
  -- the rest of the call, once it is known whether the inode may go
  have hrest : ∀ b : Bool, Prog.wp (if b = true
      then unlinkEntry sb dp ip j ((s.load sb ip).inode ip).copy.type
      else do
        iunlockput sb ip
        iunlockput sb dp
        pure (-1)) E (fun _ => Wf sb h) (s.load sb ip) := by
    intro b
    cases b with
    | true =>
      exact wp_unlinkEntry L hE hw1 hvdp1 hvip (by rw [hcopy]; exact htdp) (by rw [hcopy]; exact hj)
    | false =>
      rw [if_neg (by simp)]
      simp only [wp_bind]
      refine wp_iunlockput L hw1 ?_
      intro s2 hw2 _
      exact wp_iunlockput L hw2 fun s3 hw3 _ => hw3
  split
  · next hT =>
    rw [wp_bind]
    exact wp_isdirempty hw1.core pos_one hvip hT hE (hrest _)
  · exact hrest true

theorem wp_unlink (hE : Lenient E) (hw : Wf sb h s) (hpos : 0 < h cwd) :
    (unlink sb cwd path).wp E (fun _ => Wf sb h) s := by
  rw [unlink, nameiparent, wp_bind]
  refine (wp_namex L hE hw hpos).mono ?_
  intro r s1 hr
  cases r with
  | none => exact hr.wf_none
  | some p =>
    obtain ⟨dp, name⟩ := p
    have hw1 : Wf sb (h + one dp) s1 := hr.wf
    obtain ⟨hvdp, htdp⟩ := hr.dir dp name rfl rfl
    simp only [wp_bind]
    refine wp_ilock_valid hw1.core pos_one hvdp ?_
    -- the call fails before it has found an entry
    have hfail : (iunlockput sb dp).wp E (fun _ => Wf sb h) s1 :=
      wp_iunlockput L hw1 fun s2 hw2 _ => hw2
    split
    · rw [wp_bind]
      exact hfail
    · rw [wp_bind]
      refine wp_dirlookup hw1 pos_one hvdp hE ?_ ?_
      · intro _ _
        rw [wp_bind]
        exact hfail
      · intro ip j i s2 _ hfind ho _
        have hcopy : (s2.inode dp).copy = (s1.inode dp).copy := by
          rw [(ho.core.valid dp (pos_add pos_one) (ho.keeps.valid dp pos_one hvdp)).2,
            (hw1.core.valid dp pos_one hvdp).2, ho.keeps.inum dp pos_one, ho.disk]
        refine wp_unlinkFound L hE (ho.wf hw1.dirs) (ho.keeps.valid dp pos_one hvdp)
          (by rw [hcopy]; exact htdp) ?_
        obtain ⟨-, de, hget, -⟩ := find_eq_some hfind
        rw [hw1.core.dents_eq pos_one hvdp htdp] at hget
        obtain ⟨hlt, -⟩ := List.getElem?_eq_some_iff.1 hget
        rw [Dinode.length_dents] at hlt
        rw [hcopy]
        exact hlt.le

end

end
end Xv6.Fs
