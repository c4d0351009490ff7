import Xv6.Fs.Bmap

/-! # Freeing the blocks of a file

`itrunc`, and `iupdate` at its end.
-/

namespace Xv6.Fs
set_option autoImplicit false
open Function (update update_self update_of_ne update_eq_self update_idem)
open Prog (wp_bind wp_read wp_modify)

section
variable {sb : Superblock} {h : InodeId → ℕ} {k : InodeId} {s : State} {E : Failure → Prop}

/-! ## Blocks whose bits are cleared -/


structure Cleared (sb : Superblock) (d d' : Disk) (P : ℕ → Prop) : Prop where
  bit : ∀ c, sb.bit d' c = true ↔ sb.bit d c = true ∧ ¬ P c
  data : ∀ c, sb.datastart ≤ c → d' c = d c
  dinode : ∀ j < sb.ninodes, sb.dinode d' j = sb.dinode d j

namespace Cleared
variable {d d' d'' : Disk} {P P' : ℕ → Prop}

theorem refl (hP : ∀ c, ¬ P c) : Cleared sb d d P :=
  ⟨fun c => by simp [hP c], fun _ _ => rfl, fun _ _ => rfl⟩

theorem trans (hc : Cleared sb d d' P) (hc' : Cleared sb d' d'' P') :
    Cleared sb d d'' fun c => P c ∨ P' c where
  bit c := by
    rw [hc'.bit, hc.bit]
    tauto
  data c hge := (hc'.data c hge).trans (hc.data c hge)
  dinode j hj := (hc'.dinode j hj).trans (hc.dinode j hj)

theorem congr (hc : Cleared sb d d' P) (hP : ∀ c, P' c ↔ P c) : Cleared sb d d' P' := by
  obtain rfl : P' = P := funext fun c => propext (hP c)
  exact hc

theorem setBit (L : sb.Layout) (d : Disk) {b : ℕ} (hb : b < sb.size) :
    Cleared sb d (sb.setBit d b false) fun c => c = b where
  bit c := by
    by_cases hc : c = b
    · rw [hc, Superblock.bit_setBit_self]
      simp
    · rw [Superblock.bit_setBit_ne _ hc]
      simp [hc]
  data c hc := L.setBit_of_ge d hb hc
  dinode j hj := L.dinode_setBit d hj

end Cleared

theorem wp_itruncIndirect (L : sb.Layout) (bp : Block) {l : List ℕ} (hnodup : l.Nodup)
    (hbit : ∀ j ∈ l, bp.getWord j ≠ 0 →
      bp.getWord j < sb.size ∧ sb.bit s.disk (bp.getWord j) = true)
    (hinj : ∀ i ∈ l, ∀ j ∈ l, bp.getWord i ≠ 0 → bp.getWord i = bp.getWord j → i = j) :
    (itruncIndirect sb bp l).wp E (fun _ s' => ∃ d, s' = { s with disk := d } ∧
      Cleared sb s.disk d fun c => c ≠ 0 ∧ ∃ j ∈ l, bp.getWord j = c) s := by
  induction l generalizing s with
  | nil => exact ⟨s.disk, rfl, .refl (by simp)⟩
  | cons j l ih =>
    rw [List.nodup_cons] at hnodup
    have hrest : ∀ s', (∀ i ∈ l, bp.getWord i ≠ 0 → sb.bit s'.disk (bp.getWord i) = true) →
        (itruncIndirect sb bp l).wp E (fun _ s'' => ∃ d, s'' = { s' with disk := d } ∧
          Cleared sb s'.disk d fun c => c ≠ 0 ∧ ∃ i ∈ l, bp.getWord i = c) s' := by
      intro s' hs'
      refine ih hnodup.2 ?_ ?_
      · exact fun i hi h0 => ⟨(hbit i (List.mem_cons_of_mem _ hi) h0).1, hs' i hi h0⟩
      · exact fun a ha b hb => hinj a (List.mem_cons_of_mem _ ha) b (List.mem_cons_of_mem _ hb)
    simp only [itruncIndirect]
    by_cases hj : bp.getWord j = 0
    · rw [if_neg (not_not.mpr hj)]
      refine (hrest s fun i hi h0 => (hbit i (List.mem_cons_of_mem _ hi) h0).2).mono ?_
      rintro _ s' ⟨d, rfl, hd⟩
      refine ⟨d, rfl, hd.congr ?_⟩
      intro c
      simp only [List.mem_cons, exists_eq_or_imp, hj]
      constructor
      · rintro ⟨h0, rfl | hc⟩
        · exact absurd rfl h0
        · exact ⟨h0, hc⟩
      · rintro ⟨h0, hc⟩
        exact ⟨h0, .inr hc⟩
    · rw [if_pos hj, wp_bind]
      obtain ⟨hlt, hset⟩ := hbit j List.mem_cons_self hj
      refine wp_bfree hset ?_
      have hclear := Cleared.setBit L s.disk hlt
      refine (hrest _ ?_).mono ?_
      · intro i hi h0
        refine (hclear.bit _).mpr ⟨(hbit i (List.mem_cons_of_mem _ hi) h0).2, ?_⟩
        intro heq
        have hij := hinj i (List.mem_cons_of_mem _ hi) j List.mem_cons_self h0 heq
        exact hnodup.1 (hij ▸ hi)
      · rintro _ s' ⟨d, rfl, hd⟩
        refine ⟨d, rfl, (hclear.trans hd).congr ?_⟩
        intro c
        simp only [List.mem_cons, exists_eq_or_imp]
        constructor
        · rintro ⟨h0, heq | hc⟩
          · exact .inl heq.symm
          · exact .inr ⟨h0, hc⟩
        · rintro (rfl | ⟨h0, hc⟩)
          · exact ⟨hj, .inl rfl⟩
          · exact ⟨h0, .inr hc⟩

def Dinode.clear (x : Dinode) (l : List (Fin NDIRECT)) : Dinode :=
  { x with addrs := fun n => if ∃ i ∈ l, i.castSucc = n then 0 else x.addrs n }

theorem Dinode.clear_nil (x : Dinode) : x.clear [] = x := by
  simp [Dinode.clear]

theorem Dinode.clear_cons_of_zero {x : Dinode} {i : Fin NDIRECT} (hi : x.addrs i.castSucc = 0)
    (l : List (Fin NDIRECT)) : x.clear (i :: l) = x.clear l := by
  refine Dinode.ext rfl rfl rfl rfl rfl ?_
  intro n
  simp only [Dinode.clear, List.mem_cons, exists_eq_or_imp]
  by_cases hn : i.castSucc = n
  · rw [if_pos (.inl hn), ← hn, hi, ite_self]
  · simp [hn]

theorem Dinode.clear_cons (x : Dinode) (i : Fin NDIRECT) (l : List (Fin NDIRECT)) :
    x.clear (i :: l) = Dinode.clear { x with addrs := update x.addrs i.castSucc 0 } l := by
  refine Dinode.ext rfl rfl rfl rfl rfl ?_
  intro n
  simp only [Dinode.clear, List.mem_cons, exists_eq_or_imp]
  by_cases hn : i.castSucc = n
  · rw [if_pos (.inl hn), ← hn, update_self, ite_self]
  · rw [update_of_ne (Ne.symm hn)]
    simp [hn]

theorem wp_itruncDirect (L : sb.Layout) {l : List (Fin NDIRECT)} (hnodup : l.Nodup)
    (hbit : ∀ i ∈ l, (s.inode k).copy.addrs i.castSucc ≠ 0 →
      (s.inode k).copy.addrs i.castSucc < sb.size ∧
        sb.bit s.disk ((s.inode k).copy.addrs i.castSucc) = true)
    (hinj : ∀ i ∈ l, ∀ j ∈ l, (s.inode k).copy.addrs i.castSucc ≠ 0 →
      (s.inode k).copy.addrs i.castSucc = (s.inode k).copy.addrs j.castSucc → i = j) :
    (itruncDirect sb k l).wp E (fun _ s' => ∃ d, s' = { s with
        disk := d
        inode := update s.inode k { s.inode k with copy := (s.inode k).copy.clear l } } ∧
      Cleared sb s.disk d fun c => c ≠ 0 ∧ ∃ i ∈ l, (s.inode k).copy.addrs i.castSucc = c) s := by
  induction l generalizing s with
  | nil =>
    refine ⟨s.disk, ?_, .refl (by simp)⟩
    rw [Dinode.clear_nil]
    change s = { s with inode := update s.inode k (s.inode k) }
    rw [update_eq_self]
  | cons i l ih =>
    rw [List.nodup_cons] at hnodup
    simp only [itruncDirect, inode, wp_bind, wp_read]
    by_cases hi : (s.inode k).copy.addrs i.castSucc = 0
    · rw [if_neg (not_not.mpr hi), Dinode.clear_cons_of_zero hi]
      refine (ih hnodup.2 (fun j hj => hbit j (List.mem_cons_of_mem _ hj)) ?_).mono ?_
      · exact fun a ha b hb => hinj a (List.mem_cons_of_mem _ ha) b (List.mem_cons_of_mem _ hb)
      · rintro _ s' ⟨d, rfl, hd⟩
        refine ⟨d, rfl, hd.congr ?_⟩
        intro c
        simp only [List.mem_cons, exists_eq_or_imp, hi]
        constructor
        · rintro ⟨h0, rfl | hc⟩
          · exact absurd rfl h0
          · exact ⟨h0, hc⟩
        · rintro ⟨h0, hc⟩
          exact ⟨h0, .inr hc⟩
    · obtain ⟨hlt, hset⟩ := hbit i List.mem_cons_self hi
      rw [if_pos hi, wp_bind]
      refine wp_bfree hset ?_
      simp only [setCopy, setInode, wp_bind, wp_modify]
      have hclear := Cleared.setBit L s.disk hlt
      -- the other direct slots are as before
      have hother : ∀ j ∈ l, update (s.inode k).copy.addrs i.castSucc 0 j.castSucc =
          (s.inode k).copy.addrs j.castSucc := by
        intro j hj
        refine update_of_ne ?_ _ _
        intro heq
        exact hnodup.1 (Fin.castSucc_injective _ heq ▸ hj)
      refine (ih hnodup.2 ?_ ?_).mono ?_
      · intro j hj
        simp only [update_self]
        rw [hother j hj]
        intro h0
        refine ⟨(hbit j (List.mem_cons_of_mem _ hj) h0).1, (hclear.bit _).mpr
          ⟨(hbit j (List.mem_cons_of_mem _ hj) h0).2, ?_⟩⟩
        intro heq
        have hij := hinj j (List.mem_cons_of_mem _ hj) i List.mem_cons_self h0 heq
        exact hnodup.1 (hij ▸ hj)
      · intro a ha b hb
        simp only [update_self]
        rw [hother a ha, hother b hb]
        exact hinj a (List.mem_cons_of_mem _ ha) b (List.mem_cons_of_mem _ hb)
      · rintro _ s' ⟨d, rfl, hd⟩
        refine ⟨d, ?_, (hclear.trans hd).congr ?_⟩
        · dsimp only
          rw [update_self, update_idem, Dinode.clear_cons]
        · intro c
          dsimp only
          rw [update_self]
          simp only [List.mem_cons, exists_eq_or_imp]
          constructor
          · rintro ⟨h0, heq | ⟨j, hj, hc⟩⟩
            · exact .inl heq.symm
            · exact .inr ⟨h0, j, hj, (hother j hj).trans hc⟩
          · rintro (rfl | ⟨h0, j, hj, hc⟩)
            · exact ⟨hi, .inl rfl⟩
            · exact ⟨h0, .inr ⟨j, hj, (hother j hj).symm.trans hc⟩⟩

def Dinode.empty (x : Dinode) : Dinode := { x with size := 0, addrs := fun _ => 0 }

theorem Dinode.clear_last (x : Dinode) (l : List (Fin NDIRECT)) :
    (x.clear l).addrs (Fin.last _) = x.addrs (Fin.last _) := by
  simp only [Dinode.clear]
  refine if_neg ?_
  rintro ⟨i, -, hi⟩
  exact absurd hi (Fin.castSucc_ne_last i)

theorem Dinode.clear_all_castSucc (x : Dinode) (i : Fin NDIRECT) :
    (x.clear (List.finRange NDIRECT)).addrs i.castSucc = 0 := if_pos ⟨i, List.mem_finRange i, rfl⟩

theorem Dinode.clear_all_update (x : Dinode) :
    { x.clear (List.finRange NDIRECT) with
      size := 0
      addrs := update (x.clear (List.finRange NDIRECT)).addrs (Fin.last _) 0 } = x.empty := by
  refine Dinode.ext rfl rfl rfl rfl rfl ?_
  intro n
  change update (x.clear (List.finRange NDIRECT)).addrs (Fin.last _) 0 n = 0
  rcases Fin.eq_castSucc_or_eq_last n with ⟨i, rfl⟩ | rfl
  · rw [update_of_ne (Fin.castSucc_ne_last i), clear_all_castSucc]
  · exact update_self ..

theorem Dinode.clear_all {x : Dinode} (h : x.addrs (Fin.last _) = 0) :
    { x.clear (List.finRange NDIRECT) with size := 0 } = x.empty := by
  rw [← clear_all_update, ← h, ← x.clear_last (List.finRange NDIRECT), update_eq_self]

theorem wp_iupdate {Q : Unit → State → Prop}
    (hQ : Q () { s with disk := sb.setDinode s.disk (s.inode k).inum (s.inode k).copy }) :
    (iupdate sb k).wp E Q s := hQ

section
variable (L : sb.Layout) (hd : Dirty sb h k s)
include L hd

theorem Dirty.iupdate :
    let s' : State := { s with disk := sb.setDinode s.disk (s.inode k).inum (s.inode k).copy }
    Core sb (sb.dinode s'.disk) h s' ∧ Frame sb k s s' ∧ sb.dinode s'.disk = view sb k s := by
  have hlt := hd.inum_lt
  intro s'
  have hdinode : sb.dinode s'.disk = view sb k s := by
    funext j
    by_cases hj : j = (s.inode k).inum
    · rw [hj, view_self]
      exact Superblock.dinode_setDinode_self _ (hd.fits L)
    · rw [view_of_ne hj]
      exact Superblock.dinode_setDinode_ne _ hj
  have hblock : ∀ j < sb.ninodes, (view sb k s j).type ≠ 0 → ∀ τ, (view sb k s j).ref s.disk τ ≠ 0 →
      s'.disk ((view sb k s j).ref s.disk τ) = s.disk ((view sb k s j).ref s.disk τ) := by
    intro j hj ht τ hτ
    exact L.setDinode_of_ge _ hlt (hd.of_ref hj ht hτ).1.1
  have href : ∀ j < sb.ninodes, (view sb k s j).type ≠ 0 → ∀ τ,
      (view sb k s j).ref s'.disk τ = (view sb k s j).ref s.disk τ := by
    intro j hj ht τ
    exact Dinode.ref_congr (fun hlast => hblock j hj ht (.addr (Fin.last _)) hlast) τ
  have hframe : Frame sb k s s' := by
    refine ⟨(update_eq_self k s.inode).symm, ?_, ?_, ?_⟩
    · intro j _ hne
      rw [hdinode, view_of_ne hne]
    · intro j hj hne ht τ
      rw [← view_of_ne hne] at ht ⊢
      exact href j hj ht τ
    · intro j hj hne ht τ hτ
      rw [← view_of_ne hne] at ht hτ ⊢
      exact hblock j hj ht τ hτ
  refine ⟨?_, hframe, hdinode⟩
  rw [hdinode]
  refine hframe.core hd.core (fun hpos hv => hd.core.valid k hpos hv) (fun _ _ _ => rfl) ?_
  refine hd.core.blocks.same ?_ (fun _ _ => rfl) href ?_ ?_
  · exact fun b _ => L.bit_setDinode _ hlt b
  · exact fun j hj ht => hd.core.blocks.size j hj ht
  · exact fun j hj ht bn hbn => hd.core.blocks.full j hj ht bn hbn

theorem Dirty.data_iupdate {τ : Slot} (hτ : (s.inode k).copy.ref s.disk τ ≠ 0) :
    sb.setDinode s.disk (s.inode k).inum (s.inode k).copy ((s.inode k).copy.ref s.disk τ) =
      s.disk ((s.inode k).copy.ref s.disk τ) := by
  have := hd.of_ref hd.inum_lt (by rw [view_self]; exact hd.type_ne)
    (by rw [view_self]; exact hτ)
  rw [view_self] at this
  exact L.setDinode_of_ge _ hd.inum_lt this.1.1

theorem Dirty.ref_iupdate (τ : Slot) :
    (s.inode k).copy.ref (sb.setDinode s.disk (s.inode k).inum (s.inode k).copy) τ =
      (s.inode k).copy.ref s.disk τ :=
  Dinode.ref_congr (hd.data_iupdate L (τ := .addr (Fin.last _))) τ

theorem Dirty.byte_iupdate {o : ℕ} (ho : (s.inode k).copy.blk s.disk (o / BSIZE) ≠ 0) :
    (s.inode k).copy.byte (sb.setDinode s.disk (s.inode k).inum (s.inode k).copy) o =
      (s.inode k).copy.byte s.disk o := by
  rw [Dinode.byte, Dinode.blk, hd.ref_iupdate L, hd.data_iupdate L ho, Dinode.byte, Dinode.blk]

end

theorem Dirty.emptied (hd : Dirty sb h k s) {d : Disk}
    (hc : Cleared sb s.disk d fun c => c ≠ 0 ∧ ∃ τ, (s.inode k).copy.ref s.disk τ = c) :
    let s' : State := { s with
      disk := d
      inode := update s.inode k { s.inode k with copy := (s.inode k).copy.empty } }
    Dirty sb h k s' ∧ Frame sb k s s' := by
  have href : ∀ j < sb.ninodes, (view sb k s j).type ≠ 0 → ∀ τ,
      (view sb k s j).ref d τ = (view sb k s j).ref s.disk τ := by
    intro j hj ht τ
    exact Dinode.ref_congr (fun hlast =>
      hc.data _ (hd.of_ref (τ := .addr (Fin.last _)) hj ht hlast).1.1) τ
  intro s'
  have hinode : s'.inode k = { s.inode k with copy := (s.inode k).copy.empty } :=
    update_self ..
  have hframe : Frame sb k s s' := by
    refine ⟨?_, fun j hj _ => hc.dinode j hj, ?_, ?_⟩
    · rw [hinode]
    · intro j hj hne ht τ
      rw [← view_of_ne hne] at ht ⊢
      exact href j hj ht τ
    · intro j hj hne ht τ hτ
      rw [← view_of_ne hne] at ht hτ ⊢
      exact hc.data _ (hd.of_ref hj ht hτ).1.1
  refine ⟨hframe.dirty hd ?_ ?_, hframe⟩
  · rw [hinode]
    exact hd.type_ne
  · have hreset : BlockInv sb (update (view sb k s) (s.inode k).inum
        (s.inode k).copy.empty) d := by
      refine hd.core.blocks.reset ?_ rfl ?_ (fun j hj ht _ => href j hj ht)
      · intro τ
        cases τ with
        | addr n => rfl
        | entry j => exact Dinode.ref_entry_of_zero rfl j
      · intro c _
        rw [hc.bit]
        refine and_congr_right fun _ => ?_
        constructor
        · intro hnone τ hown
          obtain ⟨-, -, href, h0⟩ := own_eq_some hown
          rw [view_self] at href
          exact hnone ⟨h0, τ, href⟩
        · rintro hnone ⟨h0, τ, rfl⟩
          apply hnone τ
          have hown : own sb (view sb k s) s.disk ((s.inode k).inum, τ) = some _ :=
            own_of_ref hd.inum_lt (by rw [view_self]; exact hd.type_ne)
              (by rw [view_self]; exact h0)
          rwa [view_self] at hown
    refine hreset.congr_inodes ?_
    intro j hj
    by_cases hji : j = (s.inode k).inum
    · rw [hji, update_self, ← hframe.inum, view_self, hinode]
    · rw [update_of_ne hji, view_of_ne hji, view_of_ne (by rw [hframe.inum]; exact hji)]
      exact hc.dinode j hj

theorem Dinode.exists_ref (x : Dinode) (d : Disk) {c : ℕ} (hc : c ≠ 0) :
    (∃ τ, x.ref d τ = c) ↔ (∃ i ∈ List.finRange NDIRECT, x.addrs i.castSucc = c) ∨
      x.addrs (Fin.last _) ≠ 0 ∧ (x.addrs (Fin.last _) = c ∨
        ∃ j ∈ List.range NINDIRECT, (d (x.addrs (Fin.last _))).getWord j = c) := by
  constructor
  · rintro ⟨τ, rfl⟩
    cases τ with
    | addr n =>
      rcases Fin.eq_castSucc_or_eq_last n with ⟨i, rfl⟩ | rfl
      · exact .inl ⟨i, List.mem_finRange i, rfl⟩
      · exact .inr ⟨hc, .inl rfl⟩
    | entry j =>
      by_cases hlast : x.addrs (Fin.last _) = 0
      · exact absurd (ref_entry_of_zero hlast j) hc
      · rw [ref_entry rfl hlast] at hc ⊢
        refine .inr ⟨hlast, .inr ⟨j, List.mem_range.mpr ?_, rfl⟩⟩
        by_contra hj
        have hBSIZE : BSIZE = 4 * NINDIRECT := rfl
        exact hc (ByteBlock.getWord_of_ge _ (by omega))
  · rintro (⟨i, -, hi⟩ | ⟨hlast, hc | ⟨j, -, hj⟩⟩)
    · exact ⟨.addr i.castSucc, hi⟩
    · exact ⟨.addr (Fin.last _), hc⟩
    · exact ⟨.entry j, by rw [ref_entry rfl hlast]; exact hj⟩

theorem wp_itrunc (L : sb.Layout) (hd : Dirty sb h k s) :
    (itrunc sb k).wp E (fun _ s' => Core sb (sb.dinode s'.disk) h s' ∧ Frame sb k s s' ∧
      (s'.inode k).copy = (s.inode k).copy.empty) s := by
  have hlt := hd.inum_lt
  have hslot : ∀ τ, (s.inode k).copy.ref s.disk τ ≠ 0 →
      sb.IsData ((s.inode k).copy.ref s.disk τ) ∧
        sb.bit s.disk ((s.inode k).copy.ref s.disk τ) = true := by
    intro τ hτ
    have := hd.of_ref (τ := τ) hlt (by rw [view_self]; exact hd.type_ne)
      (by rw [view_self]; exact hτ)
    rwa [view_self] at this
  have hinj : ∀ σ τ, (s.inode k).copy.ref s.disk σ ≠ 0 →
      (s.inode k).copy.ref s.disk σ = (s.inode k).copy.ref s.disk τ → σ = τ := by
    intro σ τ hσ heq
    have := hd.core.blocks.ref_inj (σ := σ) (τ := τ) hlt (by rw [view_self]; exact hd.type_ne) hlt
      (by rw [view_self]; exact hd.type_ne)
    rw [view_self] at this
    exact (this hσ heq).2
  -- once the blocks are free, the copy is written back
  have hfinish : ∀ d,
      Cleared sb s.disk d (fun c => c ≠ 0 ∧ ∃ τ, (s.inode k).copy.ref s.disk τ = c) →
      (iupdate sb k).wp E (fun _ s' => Core sb (sb.dinode s'.disk) h s' ∧ Frame sb k s s' ∧
        (s'.inode k).copy = (s.inode k).copy.empty)
      { s with disk := d
               inode := update s.inode k
                { s.inode k with copy := (s.inode k).copy.empty } } := by
    intro d hc
    obtain ⟨hd', hf⟩ := hd.emptied hc
    obtain ⟨hcore, hf', -⟩ := hd'.iupdate L
    refine wp_iupdate ⟨hcore, hf.trans hf', ?_⟩
    dsimp only
    rw [update_self]
  simp only [itrunc, wp_bind]
  refine (wp_itruncDirect L (List.nodup_finRange _) ?_ ?_).mono ?_
  · intro i _ h0
    obtain ⟨hdata, hset⟩ := hslot (.addr i.castSucc) h0
    exact ⟨hdata.2, hset⟩
  · intro i _ j _ h0 heq
    exact Fin.castSucc_injective _ (Slot.addr.inj
      (hinj (.addr i.castSucc) (.addr j.castSucc) h0 heq))
  rintro _ s1 ⟨d1, rfl, hc1⟩
  simp only [inode, wp_read, update_self, Dinode.clear_last, setCopy, setInode]
  by_cases h0 : (s.inode k).copy.addrs (Fin.last _) = 0
  · rw [if_neg (not_not.mpr h0)]
    simp only [wp_bind, wp_modify, update_self, update_idem]
    rw [Dinode.clear_all h0]
    refine hfinish d1 (hc1.congr ?_)
    intro c
    refine and_congr_right fun hc => ?_
    rw [Dinode.exists_ref _ _ hc]
    exact or_iff_left fun h => h.1 h0
  · rw [if_pos h0]
    simp only [bread, wp_bind, wp_read]
    obtain ⟨hlastData, hlastSet⟩ := hslot (.addr (Fin.last _)) h0
    have hentry : ∀ j, (s.inode k).copy.ref s.disk (.entry j) =
        (s.disk ((s.inode k).copy.addrs (Fin.last _))).getWord j := Dinode.ref_entry rfl h0
    rw [show d1 ((s.inode k).copy.addrs (Fin.last _)) = s.disk ((s.inode k).copy.addrs (Fin.last _))
      from hc1.data _ hlastData.1]
    refine (wp_itruncIndirect L _ List.nodup_range ?_ ?_).mono ?_
    · intro j _ hj
      rw [← hentry] at hj ⊢
      refine ⟨(hslot _ hj).1.2, (hc1.bit _).mpr ⟨(hslot _ hj).2, ?_⟩⟩
      rintro ⟨-, i, -, hi⟩
      cases hinj (.entry j) (.addr i.castSucc) hj hi.symm
    · intro i _ j _ hi hij
      rw [← hentry] at hi
      rw [← hentry, ← hentry] at hij
      exact Slot.entry.inj (hinj _ _ hi hij)
    rintro _ s2 ⟨d2, rfl, hc2⟩
    have hc3 := hc1.trans hc2
    refine wp_bfree ((hc3.bit _).mpr ⟨hlastSet, ?_⟩) ?_
    · rintro (⟨-, i, -, hi⟩ | ⟨-, j, -, hj⟩)
      · have heq := Slot.addr.inj (hinj (.addr (Fin.last _)) (.addr i.castSucc) h0 hi.symm)
        exact Fin.castSucc_ne_last i heq.symm
      · rw [← hentry] at hj
        cases hinj (.addr (Fin.last _)) (.entry j) h0 hj.symm
    simp only [wp_modify, update_self, update_idem]
    rw [Dinode.clear_all_update]
    refine hfinish _ ((hc3.trans (Cleared.setBit L d2 hlastData.2)).congr ?_)
    intro c
    constructor
    · rintro ⟨hc, hex⟩
      rw [Dinode.exists_ref _ _ hc] at hex
      obtain hdirect | ⟨-, hlast | hindirect⟩ := hex
      · exact .inl (.inl ⟨hc, hdirect⟩)
      · exact .inr hlast.symm
      · exact .inl (.inr ⟨hc, hindirect⟩)
    · rintro ((⟨hc, hdirect⟩ | ⟨hc, hindirect⟩) | rfl)
      · exact ⟨hc, (Dinode.exists_ref _ _ hc).mpr (.inl hdirect)⟩
      · exact ⟨hc, (Dinode.exists_ref _ _ hc).mpr (.inr ⟨h0, .inr hindirect⟩)⟩
      · exact ⟨h0, .addr (Fin.last _), rfl⟩

end
end Xv6.Fs
