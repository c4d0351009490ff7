import Xv6.Fs.Wf

/-! # Allocating blocks

`balloc`, `bfree` and `bmap`.
-/

namespace Xv6.Fs
set_option autoImplicit false
open Function (update update_self update_of_ne update_eq_self)
open Prog (wp_bind wp_read wp_pure)

section
variable {sb : Superblock} {h : InodeId → ℕ} {k : InodeId} {s s' s'' : State} {E : Failure → Prop}

/-! ## One block -/

def Superblock.take (sb : Superblock) (d : Disk) (b : ℕ) : Disk :=
  update (sb.setBit d b true) b (ByteBlock.fill BSIZE 0)

section
variable (L : sb.Layout) (d : Disk) {b c : ℕ} (hb : sb.IsData b)

theorem take_self : sb.take d b b = ByteBlock.fill BSIZE 0 := update_self ..

include L hb

theorem take_of_ne (hc : sb.datastart ≤ c) (hne : c ≠ b) : sb.take d b c = d c := by
  rw [Superblock.take, update_of_ne hne, L.setBit_of_ge d hb.2 hc]

theorem dinode_take {i : ℕ} (hi : i < sb.ninodes) : sb.dinode (sb.take d b) i = sb.dinode d i := by
  rw [Superblock.take, L.dinode_update _ hi hb.1, L.dinode_setBit _ hi]

theorem bit_take_self : sb.bit (sb.take d b) b = true := by
  rw [Superblock.take, L.bit_update _ hb.1 hb.2, Superblock.bit_setBit_self]

theorem bit_take_of_ne (hc : c < sb.size) (hne : c ≠ b) : sb.bit (sb.take d b) c = sb.bit d c := by
  rw [Superblock.take, L.bit_update _ hb.1 hc, Superblock.bit_setBit_ne _ hne]

end

def Full (sb : Superblock) (d : Disk) : Prop := ∀ b < sb.size, sb.bit d b = true

theorem wp_balloc {Q : ℕ → State → Prop} (hmeta : ∀ b < sb.datastart, sb.bit s.disk b = true)
    (hnone : Full sb s.disk → Q 0 s) (hsome : ∀ b, sb.IsData b → sb.bit s.disk b = false →
      Q b { s with disk := sb.take s.disk b }) : (balloc sb).wp E Q s := by
  simp only [balloc, wp_bind, wp_read]
  split
  · next b hfind =>
    have hb : sb.bit s.disk b = false := by simpa using List.find?_some hfind
    have hlt : b < sb.size := List.mem_range.mp (List.mem_of_find?_eq_some hfind)
    refine hsome b ⟨?_, hlt⟩ hb
    by_contra hge
    rw [hmeta b (by omega)] at hb
    cases hb
  · next hfind =>
    refine hnone fun b hb => ?_
    simpa using List.find?_eq_none.mp hfind b (List.mem_range.mpr hb)

theorem wp_bfree {Q : Unit → State → Prop} {b : ℕ} (hbit : sb.bit s.disk b = true)
    (hQ : Q () { s with disk := sb.setBit s.disk b false }) : (bfree sb b).wp E Q s := by
  simp only [bfree, wp_bind, bread, wp_read]
  split
  · next hb =>
    rw [Superblock.bit, hb] at hbit
    cases hbit
  · exact hQ

/-! ## The blocks a file gains -/

/-- The file of entry `k` keeps its blocks and their contents, but for the indirect block. -/
structure Grown (k : InodeId) (s s' : State) : Prop where
  copy : (s'.inode k).copy = { (s.inode k).copy with addrs := (s'.inode k).copy.addrs }
  ref : ∀ τ, (s.inode k).copy.ref s.disk τ ≠ 0 →
    (s'.inode k).copy.ref s'.disk τ = (s.inode k).copy.ref s.disk τ
  data : ∀ τ, τ ≠ .addr (Fin.last _) → (s.inode k).copy.ref s.disk τ ≠ 0 →
    s'.disk ((s.inode k).copy.ref s.disk τ) = s.disk ((s.inode k).copy.ref s.disk τ)

theorem Grown.refl (k : InodeId) (s : State) : Grown k s s :=
  ⟨rfl, fun _ _ => rfl, fun _ _ _ => rfl⟩

theorem Grown.trans (h : Grown k s s') (h' : Grown k s' s'') : Grown k s s'' where
  copy := by
    rw [h'.copy, h.copy]
  ref τ hτ := by
    rw [h'.ref τ (by rw [h.ref τ hτ]; exact hτ), h.ref τ hτ]
  data τ hne hτ := by
    have hdata := h'.data τ hne
    rw [h.ref τ hτ] at hdata
    rw [hdata hτ, h.data τ hne hτ]

namespace Dirty

theorem of_ref (hd : Dirty sb h k s) {j : ℕ} (hj : j < sb.ninodes)
    (ht : (view sb k s j).type ≠ 0) {τ : Slot} (hτ : (view sb k s j).ref s.disk τ ≠ 0) :
    sb.IsData ((view sb k s j).ref s.disk τ) ∧
      sb.bit s.disk ((view sb k s j).ref s.disk τ) = true :=
  hd.core.blocks.of_ref hj ht hτ

theorem assign (L : sb.Layout) (hd : Dirty sb h k s) {σ : Slot}
    (hσ : (s.inode k).copy.ref s.disk σ = 0) {b : ℕ} (hb : sb.IsData b)
    (hfree : sb.bit s.disk b = false) {x : Dinode} {d : Disk}
    (hx : x = { (s.inode k).copy with addrs := x.addrs }) (href : x.ref d σ = b)
    (href' : ∀ τ, τ ≠ σ → x.ref d τ = (s.inode k).copy.ref s.disk τ)
    (hdata : ∀ c, sb.datastart ≤ c → c ≠ b → c ≠ (s.inode k).copy.addrs (Fin.last _) →
      d c = s.disk c)
    (hdinode : ∀ j < sb.ninodes, sb.dinode d j = sb.dinode s.disk j)
    (hbit : sb.bit d b = true) (hbit' : ∀ c < sb.size, c ≠ b → sb.bit d c = sb.bit s.disk c) :
    let s' : State := { s with
      disk := d
      inode := update s.inode k { s.inode k with copy := x } }
    Dirty sb h k s' ∧ Frame sb k s s' ∧ Grown k s s' := by
  have hlt := hd.inum_lt
  have htype : (view sb k s (s.inode k).inum).type ≠ 0 := by
    rw [view_self]
    exact hd.type_ne
  -- a block of a slot, unless it is the indirect block of the file, keeps its contents
  have hkeep : ∀ j < sb.ninodes, (view sb k s j).type ≠ 0 → ∀ τ,
      (j, τ) ≠ ((s.inode k).inum, .addr (Fin.last _)) → (view sb k s j).ref s.disk τ ≠ 0 →
      d ((view sb k s j).ref s.disk τ) = s.disk ((view sb k s j).ref s.disk τ) := by
    intro j hj htj τ hne hτ
    obtain ⟨hisData, hset⟩ := hd.of_ref hj htj hτ
    refine hdata _ hisData.1 ?_ ?_
    · intro heq
      rw [heq, hfree] at hset
      cases hset
    · intro heq
      apply hne
      have hinj := hd.core.blocks.ref_inj (τ := .addr (Fin.last _)) hj htj
        hlt htype hτ (by rw [view_self]; exact heq)
      rw [hinj.1, hinj.2]
  have hother : ∀ j < sb.ninodes, (view sb k s j).type ≠ 0 → j ≠ (s.inode k).inum → ∀ τ,
      (view sb k s j).ref d τ = (view sb k s j).ref s.disk τ := by
    intro j hj htj hne τ
    refine Dinode.ref_congr (fun hlast => ?_) τ
    exact hkeep j hj htj (.addr (Fin.last _)) (fun heq => hne (Prod.mk.inj heq).1) hlast
  intro s'
  have hinode : s'.inode k = { s.inode k with copy := x } := update_self ..
  have hframe : Frame sb k s s' := by
    refine ⟨?_, fun j hj _ => hdinode j hj, ?_, ?_⟩
    · rw [hinode]
    · intro j hj hne ht τ
      have := hother j hj (by rw [view_of_ne hne]; exact ht) hne τ
      rwa [view_of_ne hne] at this
    · intro j hj hne ht τ hτ
      have := hkeep j hj (by rw [view_of_ne hne]; exact ht) τ (fun heq => hne (Prod.mk.inj heq).1)
      rw [view_of_ne hne] at this
      exact this hτ
  refine ⟨hframe.dirty hd ?_ ?_, hframe, ?_, ?_, ?_⟩
  · rw [hinode, hx]
    exact hd.type_ne
  · have hview : ∀ j < sb.ninodes, view sb k s' j =
        update (view sb k s) (s.inode k).inum x j := by
      intro j hj
      by_cases hji : j = (s.inode k).inum
      · rw [hji, update_self, ← hframe.inum, view_self, hinode]
      · rw [update_of_ne hji, view_of_ne hji, view_of_ne (by rw [hframe.inum]; exact hji)]
        exact hdinode j hj
    have hassign : BlockInv sb (update (view sb k s) (s.inode k).inum x) d := by
      refine hd.core.blocks.assign hlt htype ?_ ?_ hb ?_ hfree ?_ hbit hbit' href ?_ hother
      · rw [view_self, hx]
      · rw [view_self, hx]
      · have := L.bmapstart_lt
        have := hb.1
        omega
      · rw [view_self]
        exact hσ
      · rw [view_self]
        exact href'
    exact hassign.congr_inodes fun j hj => (hview j hj)
  · rw [hinode]
    exact hx
  · intro τ hτ
    rw [hinode]
    refine href' τ ?_
    rintro rfl
    exact hτ hσ
  · intro τ hne hτ
    have := hkeep _ hlt htype τ (fun heq => hne (Prod.mk.inj heq).2)
    rw [view_self] at this
    exact this hτ

end Dirty

/-! ## `bmap` -/

theorem wp_bmapSlot (L : sb.Layout) (hd : Dirty sb h k s) (n : Fin (NDIRECT + 1)) :
    (bmapSlot sb k n).wp E (fun r s' => (Dirty sb h k s' ∧ Frame sb k s s' ∧ Grown k s s') ∧
      (r ≠ 0 → (s'.inode k).copy.addrs n = r) ∧ (r = 0 → Full sb s'.disk) ∧
      ((s.inode k).copy.addrs n ≠ 0 → r = (s.inode k).copy.addrs n ∧ s' = s)) s := by
  simp only [bmapSlot, inode, wp_bind, wp_read]
  split
  · next hn =>
    simp only [wp_bind]
    refine wp_balloc hd.core.blocks.metadata ?_ ?_
    · intro hfull
      simp only [if_true, wp_pure]
      exact ⟨⟨hd, .refl _ _ _, .refl _ _⟩, fun h0 => absurd rfl h0, fun _ => hfull,
        fun h0 => absurd hn h0⟩
    · intro b hb hfree
      have hb0 : b ≠ 0 := by
        have := L.bmapstart_lt
        have := hb.1
        omega
      rw [if_neg hb0]
      simp only [setCopy, setInode, wp_bind, Prog.wp_modify, wp_pure]
      have hused : ∀ τ, (s.inode k).copy.ref s.disk τ ≠ 0 → (s.inode k).copy.ref s.disk τ ≠ b ∧
          sb.datastart ≤ (s.inode k).copy.ref s.disk τ := by
        intro τ hτ
        obtain ⟨hisData, hset⟩ := hd.of_ref hd.inum_lt (by rw [view_self]; exact hd.type_ne)
          (by rw [view_self]; exact hτ)
        rw [view_self] at hisData hset
        refine ⟨?_, hisData.1⟩
        intro heq
        rw [heq, hfree] at hset
        cases hset
      refine ⟨hd.assign L (σ := .addr n) hn hb hfree rfl (update_self ..) ?_
        (fun c hc hne _ => take_of_ne L _ hb hc hne) (fun j hj => dinode_take L _ hb hj)
        (bit_take_self L _ hb) (fun c hc hne => bit_take_of_ne L _ hb hc hne), ?_,
        fun h0 => absurd h0 hb0, ?_⟩
      · intro τ hτ
        cases τ with
        | addr m => exact update_of_ne (fun hm => hτ (by rw [hm])) _ _
        | entry j =>
          by_cases hlast : n = Fin.last _
          · -- the new indirect block is zero
            subst hlast
            have hself : update (s.inode k).copy.addrs (Fin.last _) b (Fin.last _) = b :=
              update_self ..
            rw [Dinode.ref_entry_of_zero hn, Dinode.ref_entry hself hb0, take_self]
            exact ByteBlock.getWord_fill_zero _
          · have hsame : update (s.inode k).copy.addrs n b (Fin.last _) =
                (s.inode k).copy.addrs (Fin.last _) := update_of_ne (Ne.symm hlast) _ _
            by_cases hzero : (s.inode k).copy.addrs (Fin.last _) = 0
            · rw [Dinode.ref_entry_of_zero hzero, Dinode.ref_entry_of_zero (hsame.trans hzero)]
            · obtain ⟨h1, h2⟩ := hused (.addr (Fin.last _)) hzero
              rw [Dinode.ref_entry rfl hzero, Dinode.ref_entry hsame hzero]
              exact congrArg (fun blk => ByteBlock.getWord blk j) (take_of_ne L _ hb h2 h1)
      · intro _
        rw [update_self]
        exact update_self ..
      · exact fun h0 => absurd hn h0
  · next hn =>
    exact ⟨⟨hd, .refl _ _ _, .refl _ _⟩, fun _ => rfl, fun h0 => absurd h0 hn, fun _ => ⟨rfl, rfl⟩⟩

/-- The block is there, or the disk is full. A block that was there is returned and nothing changes.
-/
theorem wp_bmap (L : sb.Layout) (hd : Dirty sb h k s) {bn : ℕ} (hbn : bn < MAXFILE) :
    (bmap sb k bn).wp E (fun r s' => (Dirty sb h k s' ∧ Frame sb k s s' ∧ Grown k s s') ∧
      (r ≠ 0 → (s'.inode k).copy.blk s'.disk bn = r) ∧ (r = 0 → Full sb s'.disk) ∧
      ((s.inode k).copy.blk s.disk bn ≠ 0 → r = (s.inode k).copy.blk s.disk bn ∧ s' = s)) s := by
  have hMAXFILE : MAXFILE = NDIRECT + NINDIRECT := rfl
  unfold bmap
  by_cases hdirect : bn < NDIRECT
  · rw [if_pos hdirect]
    simp only [Dinode.blk, Slot.of_direct hdirect]
    exact wp_bmapSlot L hd _
  · rw [if_neg hdirect, if_pos (by omega : bn - NDIRECT < NINDIRECT)]
    simp only [Dinode.blk, Slot.of_ge hdirect, wp_bind]
    refine (wp_bmapSlot L hd (Fin.last _)).mono ?_
    rintro ind s1 ⟨⟨hd1, hf1, hg1⟩, hind, hfull1, hsame1⟩
    by_cases hind0 : ind = 0
    · rw [if_pos hind0]
      refine ⟨⟨hd1, hf1, hg1⟩, fun h0 => absurd rfl h0, fun _ => hfull1 hind0, ?_⟩
      intro hentry
      have hlast : (s.inode k).copy.addrs (Fin.last _) ≠ 0 :=
        fun hzero => hentry (Dinode.ref_entry_of_zero hzero _)
      exact absurd ((hsame1 hlast).1.symm.trans hind0) hlast
    · rw [if_neg hind0]
      have hlast1 := hind hind0
      simp only [bread, wp_bind, wp_read]
      have hword : (s1.inode k).copy.ref s1.disk (.entry (bn - NDIRECT)) =
          (s1.disk ind).getWord (bn - NDIRECT) := Dinode.ref_entry hlast1 hind0 _
      by_cases haddr : (s1.disk ind).getWord (bn - NDIRECT) = 0
      · rw [if_pos haddr]
        have hnew : (s.inode k).copy.ref s.disk (.entry (bn - NDIRECT)) = 0 := by
          by_contra hne
          have href := hg1.ref _ hne
          rw [hword, haddr] at href
          exact hne href.symm
        simp only [wp_bind]
        refine wp_balloc hd1.core.blocks.metadata ?_ ?_
        · intro hfull
          simp only [if_true, wp_pure]
          exact ⟨⟨hd1, hf1, hg1⟩, fun h0 => absurd rfl h0, fun _ => hfull, fun h0 => absurd hnew h0⟩
        · intro b hb hfree
          have hb0 : b ≠ 0 := by
            have := L.bmapstart_lt
            have := hb.1
            omega
          rw [if_neg hb0]
          simp only [bwrite, wp_bind, Prog.wp_modify, wp_pure]
          -- the indirect block is a data block in use, so it is not the new one
          obtain ⟨hindData, hindSet⟩ := hd1.of_ref hd1.inum_lt
            (by rw [view_self]; exact hd1.type_ne)
            (by rw [view_self, Dinode.ref, hlast1]; exact hind0)
          rw [view_self, Dinode.ref, hlast1] at hindData hindSet
          have hne : ind ≠ b := by
            rintro rfl
            rw [hfree] at hindSet
            cases hindSet
          have hbound : 4 * (bn - NDIRECT) + 3 < BSIZE := by
            have hNINDIRECT : NINDIRECT = BSIZE / 4 := rfl
            omega
          have hb32 : b % 4294967296 = b := by
            have := hb.2
            have := L.size
            exact Nat.mod_eq_of_lt (by omega)
          obtain ⟨hd2, hf2, hg2⟩ := hd1.assign L
           
            (d := update (sb.take s1.disk b) ind ((s1.disk ind).setWord (bn - NDIRECT) b))
            (by rw [hword]; exact haddr) hb hfree rfl
            (by
              rw [Dinode.ref_entry hlast1 hind0, update_self,
                ByteBlock.getWord_setWord_self _ _ _ hbound, hb32])
            (by
              intro τ hτ
              cases τ with
              | addr m => rfl
              | entry j =>
                have hj : j ≠ bn - NDIRECT := fun hj => hτ (by rw [hj])
                rw [Dinode.ref_entry hlast1 hind0, Dinode.ref_entry hlast1 hind0,
                  update_self, ByteBlock.getWord_setWord_ne _ _ _ _ hj])
            (by
              intro c hc hcb hcind
              rw [hlast1] at hcind
              rw [update_of_ne hcind, take_of_ne L _ hb hc hcb])
            (by
              intro j hj
              rw [L.dinode_update _ hj hindData.1, dinode_take L _ hb hj])
            (by rw [L.bit_update _ hindData.1 hb.2, bit_take_self L _ hb])
            (by
              intro c hc hcb
              rw [L.bit_update _ hindData.1 hc, bit_take_of_ne L _ hb hc hcb])
          have hcopy : update s1.inode k { s1.inode k with copy := (s1.inode k).copy } =
              s1.inode := update_eq_self k s1.inode
          rw [hcopy] at hd2 hf2 hg2
          refine ⟨⟨hd2, hf1.trans hf2, hg1.trans hg2⟩, fun _ => ?_, fun h0 => absurd h0 hb0,
            fun h0 => absurd hnew h0⟩
          rw [Dinode.ref_entry hlast1 hind0, update_self,
            ByteBlock.getWord_setWord_self _ _ _ hbound, hb32]
      · rw [if_neg haddr]
        refine ⟨⟨hd1, hf1, hg1⟩, fun _ => hword, fun h0 => absurd h0 haddr, ?_⟩
        intro hentry
        have hlast : (s.inode k).copy.addrs (Fin.last _) ≠ 0 :=
          fun hzero => hentry (Dinode.ref_entry_of_zero hzero _)
        obtain ⟨-, rfl⟩ := hsame1 hlast
        exact ⟨hword.symm, rfl⟩

end
end Xv6.Fs
