import Xv6.Fs.Table

/-! # Reading and writing files

`readi` and `writei` on the bytes of a file.
-/

namespace Xv6.Fs
set_option autoImplicit false
open Prog (wp_bind wp_read wp_pure)

section
variable {sb : Superblock} {h : InodeId → ℕ} {k : InodeId} {s s' : State} {E : Failure → Prop}

/-! ## Bytes and blocks -/

section
variable {d : Disk} {x : Dinode}

theorem Dinode.bytes_add (off m n : ℕ) :
    x.bytes d off (m + n) = x.bytes d off m ++ x.bytes d (off + m) n := by
  rw [bytes, bytes, bytes, List.range_add, List.map_append, List.map_map]
  simp only [Function.comp_def, Nat.add_assoc]

theorem Dinode.bytes_eq_slice {off m : ℕ} (hm : m ≤ BSIZE - off % BSIZE) :
    x.bytes d off m = (d (x.blk d (off / BSIZE))).slice (off % BSIZE) m := by
  refine List.map_congr_left ?_
  intro r hr
  have hr := List.mem_range.mp hr
  have hdiv : (off + r) / BSIZE = off / BSIZE := by
    simp only [BSIZE] at hm ⊢
    omega
  have hmod : (off + r) % BSIZE = off % BSIZE + r := by
    simp only [BSIZE] at hm ⊢
    omega
  rw [byte, hdiv, hmod]

end

/-! ## `readi` -/

theorem wp_bmap_mapped {bn : ℕ} (hbn : bn < MAXFILE) (hblk : (s.inode k).copy.blk s.disk bn ≠ 0)
    {Q : ℕ → State → Prop} (hQ : Q ((s.inode k).copy.blk s.disk bn) s) :
    (bmap sb k bn).wp E Q s := by
  have hMAXFILE : MAXFILE = NDIRECT + NINDIRECT := rfl
  have hslot : ∀ (n : Fin (NDIRECT + 1)) {Q : ℕ → State → Prop}, (s.inode k).copy.addrs n ≠ 0 →
      Q ((s.inode k).copy.addrs n) s → (bmapSlot sb k n).wp E Q s := by
    intro n Q hn hQ
    simp only [bmapSlot, inode, wp_bind, wp_read, if_neg hn]
    exact hQ
  unfold bmap
  by_cases hdirect : bn < NDIRECT
  · rw [if_pos hdirect]
    rw [Dinode.blk, Slot.of_direct hdirect] at hblk hQ
    exact hslot _ hblk hQ
  · rw [if_neg hdirect, if_pos (by omega : bn - NDIRECT < NINDIRECT), wp_bind]
    rw [Dinode.blk, Slot.of_ge hdirect] at hblk hQ
    have hlast : (s.inode k).copy.addrs (Fin.last _) ≠ 0 :=
      fun h0 => hblk (Dinode.ref_entry_of_zero h0 _)
    rw [Dinode.ref_entry rfl hlast] at hblk hQ
    refine hslot _ hlast ?_
    simp only [if_neg hlast, bread, wp_bind, wp_read, if_neg hblk]
    exact hQ

variable {lim n off tot : ℕ} {copyin : ℕ → Option ℕ} {src : ℕ → UInt8}

theorem wp_readiLoop {copyout : ℕ → Bool} {fuel : ℕ} {dst : List UInt8}
    (hfuel : n - tot ≤ fuel) (htot : tot ≤ n) (hmax : off + (n - tot) ≤ MAXFILE * BSIZE)
    (hblk : ∀ o, off ≤ o → o < off + (n - tot) → (s.inode k).copy.blk s.disk (o / BSIZE) ≠ 0) :
    (readiLoop sb k copyout fuel off tot n dst).wp E (fun r s' => s' = s ∧
      ((r.1 = -1 ∧ ∃ t < n, copyout t = false) ∨ (tot < n → copyout tot = true) ∧
        r = ((n : ℤ), dst ++ (s.inode k).copy.bytes s.disk off (n - tot)))) s := by
  induction fuel generalizing off tot dst with
  | zero =>
    obtain rfl : tot = n := by omega
    refine ⟨rfl, .inr ⟨fun h => absurd h (lt_irrefl _), ?_⟩⟩
    simp [Dinode.bytes]
  | succ fuel ih =>
    unfold readiLoop
    by_cases hlt : tot < n
    · rw [if_pos hlt, wp_bind]
      have hbn : off / BSIZE < MAXFILE := Nat.div_lt_of_lt_mul (by rw [Nat.mul_comm]; omega)
      have hmapped := hblk off le_rfl (by omega)
      refine wp_bmap_mapped hbn hmapped ?_
      rw [if_neg hmapped]
      simp only [bread, wp_bind, wp_read]
      split
      · next hcopy =>
        have hpos : 0 < BSIZE - off % BSIZE := Nat.sub_pos_of_lt (Nat.mod_lt _ (by decide))
        generalize hm : min (n - tot) (BSIZE - off % BSIZE) = m
        have hm1 : m ≤ n - tot := by omega
        have hm2 : m ≤ BSIZE - off % BSIZE := by omega
        have hrest : n - (tot + m) = n - tot - m := by omega
        refine (ih (by omega) (by omega) (by omega) ?_).mono ?_
        · intro o ho1 ho2
          exact hblk o (by omega) (by omega)
        · rintro r s' ⟨hs, hr⟩
          refine ⟨hs, hr.imp_right ?_⟩
          rintro ⟨-, hr⟩
          rw [hr, List.append_assoc, ← Dinode.bytes_eq_slice hm2, hrest, ← Dinode.bytes_add,
            Nat.add_sub_cancel' hm1]
          exact ⟨fun _ => hcopy, rfl⟩
      · next hcopy => exact ⟨rfl, .inl ⟨rfl, tot, hlt, Bool.eq_false_iff.mpr hcopy⟩⟩
    · rw [if_neg hlt]
      obtain rfl : tot = n := by omega
      refine ⟨rfl, .inr ⟨fun h => absurd h hlt, ?_⟩⟩
      simp [Dinode.bytes]

section
variable (hmax : (s.inode k).copy.size ≤ MAXFILE * BSIZE)
  (hblk : ∀ o, off ≤ o → o < off + n → o < (s.inode k).copy.size →
    (s.inode k).copy.blk s.disk (o / BSIZE) ≠ 0)
include hmax hblk

theorem wp_readi {copyout : ℕ → Bool} :
    (readi sb k copyout off n).wp E (fun r s' => s' = s ∧ (off + n < 2 ^ 32 →
      (r.1 = -1 ∧ ∃ t < min n ((s.inode k).copy.size - off), copyout t = false) ∨
      (0 < min n ((s.inode k).copy.size - off) → copyout 0 = true) ∧
        r = (((min n ((s.inode k).copy.size - off) : ℕ) : ℤ),
          (s.inode k).copy.bytes s.disk off (min n ((s.inode k).copy.size - off))))) s := by
  simp only [readi, inode, wp_bind, wp_read]
  split
  · next hbad =>
    refine ⟨rfl, fun hn => .inr ?_⟩
    rw [Nat.mod_eq_of_lt hn] at hbad
    rw [show min n ((s.inode k).copy.size - off) = 0 by omega]
    exact ⟨fun h => absurd h (lt_irrefl _), rfl⟩
  · next hok =>
    have hmin : (if off + n > (s.inode k).copy.size then (s.inode k).copy.size - off else n) =
        min n ((s.inode k).copy.size - off) := by
      split <;> omega
    rw [hmin]
    refine (wp_readiLoop (by omega) (Nat.zero_le _) (by omega) ?_).mono ?_
    · intro o h1 h2
      exact hblk o h1 (by omega) (by omega)
    · rintro r s' ⟨hs, hr⟩
      exact ⟨hs, fun _ => hr⟩

theorem wp_readi_all :
    (readi sb k (fun _ => true) off n).wp E (fun r s' => s' = s ∧ (off + n < 2 ^ 32 →
      r = (((min n ((s.inode k).copy.size - off) : ℕ) : ℤ),
        (s.inode k).copy.bytes s.disk off (min n ((s.inode k).copy.size - off))))) s := by
  refine (wp_readi hmax hblk).mono ?_
  rintro r s' ⟨hs, hr⟩
  refine ⟨hs, fun hn => ?_⟩
  obtain ⟨-, t, -, ht⟩ | ⟨-, hr⟩ := hr hn
  · cases ht
  · exact hr

end

/-! ## `writei` -/

theorem Dirty.write (L : sb.Layout) (hd : Dirty sb h k s) {bn : ℕ}
    (hbn : (s.inode k).copy.blk s.disk bn ≠ 0) (b : Block) :
    let s' : State := { s with disk := Function.update s.disk ((s.inode k).copy.blk s.disk bn) b }
    Dirty sb h k s' ∧ Frame sb k s s' ∧
      (∀ τ, (s.inode k).copy.ref s'.disk τ = (s.inode k).copy.ref s.disk τ) ∧
      ∀ o, (s.inode k).copy.blk s.disk (o / BSIZE) ≠ 0 → (s.inode k).copy.byte s'.disk o =
        if o / BSIZE = bn then b.byte (o % BSIZE) else (s.inode k).copy.byte s.disk o := by
  have hlt := hd.inum_lt
  have htype : (view sb k s (s.inode k).inum).type ≠ 0 := by
    rw [view_self]
    exact hd.type_ne
  have hblk : (view sb k s (s.inode k).inum).ref s.disk (Slot.of bn) =
      (s.inode k).copy.blk s.disk bn := by
    rw [view_self]
    rfl
  have hdata : sb.IsData ((s.inode k).copy.blk s.disk bn) := by
    rw [← hblk]
    exact (hd.of_ref hlt htype (by rw [hblk]; exact hbn)).1
  intro s'
  have hkeep : ∀ j < sb.ninodes, (view sb k s j).type ≠ 0 → ∀ τ,
      (j, τ) ≠ ((s.inode k).inum, Slot.of bn) → (view sb k s j).ref s.disk τ ≠ 0 →
      s'.disk ((view sb k s j).ref s.disk τ) = s.disk ((view sb k s j).ref s.disk τ) := by
    intro j hj ht τ hne hτ
    refine Function.update_of_ne ?_ _ _
    intro heq
    rw [← hblk] at heq
    obtain ⟨h1, h2⟩ := hd.core.blocks.ref_inj hj ht hlt htype hτ heq
    exact hne (by rw [h1, h2])
  have href : ∀ j < sb.ninodes, (view sb k s j).type ≠ 0 → ∀ τ,
      (view sb k s j).ref s'.disk τ = (view sb k s j).ref s.disk τ := by
    intro j hj ht τ
    refine Dinode.ref_congr (fun hlast => hkeep j hj ht (.addr (Fin.last _)) ?_ hlast) τ
    exact fun heq => Slot.of_ne_last bn (Prod.mk.inj heq).2.symm
  have hframe : Frame sb k s s' := by
    refine ⟨(Function.update_eq_self k s.inode).symm, ?_, ?_, ?_⟩
    · exact fun j hj _ => L.dinode_update _ hj hdata.1
    · intro j hj hne ht τ
      rw [← view_of_ne hne] at ht ⊢
      exact href j hj ht τ
    · intro j hj hne ht τ hτ
      rw [← view_of_ne hne] at ht hτ ⊢
      exact hkeep j hj ht τ (fun heq => hne (Prod.mk.inj heq).1) hτ
  have hrefs : ∀ τ, (s.inode k).copy.ref s'.disk τ = (s.inode k).copy.ref s.disk τ := by
    intro τ
    have := href _ hlt htype τ
    rwa [view_self] at this
  refine ⟨hframe.dirty hd hd.type_ne ?_, hframe, hrefs, ?_⟩
  · have hsame : BlockInv sb (view sb k s) s'.disk := by
      refine hd.core.blocks.same ?_ (fun _ _ => rfl) href ?_ ?_
      · exact fun c hc => L.bit_update _ hdata.1 hc
      · exact fun j hj ht => hd.core.blocks.size j hj ht
      · exact fun j hj ht n hn => hd.core.blocks.full j hj ht n hn
    refine hsame.congr_inodes ?_
    intro j hj
    by_cases hji : j = (s.inode k).inum
    · rw [hji]
      exact (view_self).trans (view_self (s := s)).symm
    · rw [view_of_ne hji]
      exact (view_of_ne (s := s') hji).trans (L.dinode_update _ hj hdata.1)
  · intro o ho
    by_cases heq : o / BSIZE = bn
    · rw [if_pos heq, Dinode.byte, Dinode.blk, hrefs, heq]
      exact congrArg (fun c : Block => c.byte (o % BSIZE)) (Function.update_self ..)
    · rw [if_neg heq, Dinode.byte, Dinode.blk, hrefs, Dinode.byte]
      have := hkeep _ hlt htype (Slot.of (o / BSIZE))
        (fun h => heq (Slot.of_inj (Prod.mk.inj h).2))
      rw [view_self] at this
      exact congrArg (fun c : Block => c.byte (o % BSIZE)) (this ho)

/-- The bytes from `off` to `lim` have been written, and no others have changed. -/
structure Wrote (k : InodeId) (src : ℕ → UInt8) (off lim : ℕ) (s s' : State) : Prop where
  copy : (s'.inode k).copy = { (s.inode k).copy with addrs := (s'.inode k).copy.addrs }
  mapped : ∀ o < lim, (s'.inode k).copy.blk s'.disk (o / BSIZE) ≠ 0
  written : ∀ o, off ≤ o → o < lim → (s'.inode k).copy.byte s'.disk o = (src (o - off)).toNat
  blk : ∀ bn, (s.inode k).copy.blk s.disk bn ≠ 0 →
    (s'.inode k).copy.blk s'.disk bn = (s.inode k).copy.blk s.disk bn
  kept : ∀ o, o < off ∨ lim ≤ o → (s.inode k).copy.blk s.disk (o / BSIZE) ≠ 0 →
    (s'.inode k).copy.byte s'.disk o = (s.inode k).copy.byte s.disk o

namespace Wrote
variable {src : ℕ → UInt8} {off mid lim : ℕ} {s'' : State}

theorem refl (hmap : ∀ o < off, (s.inode k).copy.blk s.disk (o / BSIZE) ≠ 0) :
    Wrote k src off off s s :=
  ⟨rfl, hmap, fun o h1 h2 => absurd h1 (by omega), fun _ _ => rfl, fun _ _ _ => rfl⟩

theorem blk_ne (hw : Wrote k src off lim s s') {bn : ℕ} (h0 : (s.inode k).copy.blk s.disk bn ≠ 0) :
    (s'.inode k).copy.blk s'.disk bn ≠ 0 := by
  rw [hw.blk bn h0]
  exact h0

theorem trans (h₁ : Wrote k src off mid s s') (hmid : off ≤ mid) (hlim : mid ≤ lim)
    (h₂ : Wrote k (fun j => src (mid - off + j)) mid lim s' s'') : Wrote k src off lim s s'' where
  copy := by rw [h₂.copy, h₁.copy]
  mapped := h₂.mapped
  written o h1 h2 := by
    by_cases ho : o < mid
    · rw [h₂.kept o (.inl ho) (h₁.mapped o ho), h₁.written o h1 ho]
    · rw [h₂.written o (by omega) h2, show mid - off + (o - mid) = o - off by omega]
  blk bn h0 := by rw [h₂.blk bn (h₁.blk_ne h0), h₁.blk bn h0]
  kept o ho h0 := by
    rw [h₂.kept o (by omega) (h₁.blk_ne h0), h₁.kept o (by omega) h0]

end Wrote

theorem Grown.byte (hg : Grown k s s') {o : ℕ} (ho : (s.inode k).copy.blk s.disk (o / BSIZE) ≠ 0) :
    (s'.inode k).copy.blk s'.disk (o / BSIZE) ≠ 0 ∧
      (s'.inode k).copy.byte s'.disk o = (s.inode k).copy.byte s.disk o := by
  have href := hg.ref _ ho
  constructor
  · rw [Dinode.blk, href]
    exact ho
  · rw [Dinode.byte, Dinode.blk, href, Dinode.byte]
    exact congrArg (fun c : Block => c.byte (o % BSIZE)) (hg.data _ (Slot.of_ne_last _) ho)

theorem Dirty.copied (L : sb.Layout) (hg : Grown k s s') (hd : Dirty sb h k s') {m : ℕ}
    (src : ℕ → UInt8) (hmap : ∀ o < off, (s.inode k).copy.blk s.disk (o / BSIZE) ≠ 0)
    (hblk : (s'.inode k).copy.blk s'.disk (off / BSIZE) ≠ 0) (hm : m ≤ BSIZE - off % BSIZE) :
    let addr := (s'.inode k).copy.blk s'.disk (off / BSIZE)
    let s'' : State := { s' with
      disk := Function.update s'.disk addr ((s'.disk addr).copy (off % BSIZE) m src) }
    Dirty sb h k s'' ∧ Frame sb k s' s'' ∧ Wrote k src off (off + m) s s'' := by
  obtain ⟨hd'', hf, href, hbyte⟩ := hd.write L hblk
    ((s'.disk ((s'.inode k).copy.blk s'.disk (off / BSIZE))).copy (off % BSIZE) m src)
  intro addr s''
  have hkept : ∀ o, o < off ∨ off + m ≤ o → (s.inode k).copy.blk s.disk (o / BSIZE) ≠ 0 →
      (s''.inode k).copy.byte s''.disk o = (s.inode k).copy.byte s.disk o := by
    intro o ho h0
    obtain ⟨h0', hsame⟩ := hg.byte h0
    rw [← hsame]
    refine (hbyte o h0').trans ?_
    split
    · next heq =>
      rw [ByteBlock.byte_copy, if_neg, Dinode.byte, heq]
      rintro ⟨⟨h1, h2⟩, -⟩
      simp only [BSIZE] at heq h1 h2 hm
      omega
    · rfl
  have hkeep : ∀ bn, (s.inode k).copy.blk s.disk bn ≠ 0 →
      (s''.inode k).copy.blk s''.disk bn = (s.inode k).copy.blk s.disk bn := by
    intro bn h0
    rw [Dinode.blk, show (s''.inode k).copy.ref s''.disk (Slot.of bn) = _ from href _]
    exact hg.ref _ h0
  refine ⟨hd'', hf, hg.copy, ?_, ?_, hkeep, hkept⟩
  · intro o ho
    by_cases hlt : o < off
    · rw [hkeep _ (hmap o hlt)]
      exact hmap o hlt
    · have heq : o / BSIZE = off / BSIZE := by
        simp only [BSIZE] at hm ⊢
        omega
      rw [Dinode.blk, show (s''.inode k).copy.ref s''.disk (Slot.of (o / BSIZE)) = _
        from href _, heq]
      exact hblk
  · intro o h1 h2
    have heq : o / BSIZE = off / BSIZE := by
      simp only [BSIZE] at hm ⊢
      omega
    refine (hbyte o (by rw [heq]; exact hblk)).trans ?_
    rw [if_pos heq, ByteBlock.byte_copy, if_pos]
    · congr 2
      simp only [BSIZE] at hm ⊢
      omega
    · simp only [BSIZE] at hm ⊢
      omega

/-- A write of `n` bytes ends after `tot` of them: they are all written, the disk is full, or the
copy of the next ones fails. Bytes up to `lim` have got into the file. -/
inductive Stop (sb : Superblock) (k : InodeId) (copyin : ℕ → Option ℕ) (off n tot lim : ℕ)
    (s s' : State) : Prop
  | all (hn : tot = n) (hlim : lim = off + tot)
  | full (hfull : Full sb s'.disk) (hnew : (s.inode k).copy.blk s.disk ((off + tot) / BSIZE) = 0)
      (hlim : lim = off + tot)
  | bad (r : ℕ) (hr : copyin tot = some r) (hlt : tot < n)
      (hlim : lim = off + tot + min r (min (n - tot) (BSIZE - (off + tot) % BSIZE)))

def IsPiece (off t : ℕ) : Prop := t = 0 ∨ (off + t) % BSIZE = 0

structure WroteUpTo (sb : Superblock) (k : InodeId) (src : ℕ → UInt8) (copyin : ℕ → Option ℕ)
    (off n tot lim : ℕ) (s s' : State) : Prop where
  le : tot ≤ n
  early : tot = n ∨ IsPiece off tot
  copied : ∀ t < tot, IsPiece off t → copyin t = none
  stop : Stop sb k copyin off n tot lim s s'
  wrote : Wrote k src off lim s s'

theorem Stop.le_lim (h : Stop sb k copyin off n tot lim s s') : off + tot ≤ lim := by
  cases h <;> omega

theorem Stop.lim_eq (h : Stop sb k (fun _ => none) off n tot lim s s') : lim = off + tot := by
  cases h with
  | all _ hlim => exact hlim
  | full _ _ hlim => exact hlim
  | bad r hr => cases hr

theorem Stop.shift {m : ℕ} {s1 : State}
    (hblk : ∀ bn, (s.inode k).copy.blk s.disk bn ≠ 0 → (s1.inode k).copy.blk s1.disk bn ≠ 0)
    (h : Stop sb k (fun j => copyin (m + j)) (off + m) n tot lim s1 s') :
    Stop sb k copyin off (m + n) (m + tot) lim s s' := by
  cases h with
  | all hn hlim => exact .all (by omega) (by omega)
  | full hfull hnew hlim =>
    rw [Nat.add_assoc] at hnew
    exact .full hfull (by_contra fun h0 => hblk _ h0 hnew) (by omega)
  | bad r hr hlt hlim =>
    rw [Nat.add_assoc off] at hlim
    exact .bad r hr (by omega) (by omega)

theorem WroteUpTo.done (hn : n = 0)
    (hmap : ∀ o < off, (s.inode k).copy.blk s.disk (o / BSIZE) ≠ 0) :
    WroteUpTo sb k src copyin off n 0 off s s :=
  ⟨Nat.zero_le _, .inl hn.symm, fun _ ht => absurd ht (Nat.not_lt_zero _), .all hn.symm rfl,
    .refl hmap⟩

theorem wp_writeiLoop (L : sb.Layout) {fuel : ℕ} (hd : Dirty sb h k s) (hfuel : n - tot ≤ fuel)
    (htot : tot ≤ n) (hmax : off + (n - tot) ≤ MAXFILE * BSIZE)
    (hmap : ∀ o < off, (s.inode k).copy.blk s.disk (o / BSIZE) ≠ 0) :
    (writeiLoop sb k src copyin fuel off tot n).wp E (fun r s' =>
      Dirty sb h k s' ∧ Frame sb k s s' ∧
      ∃ m lim, r = (tot + m, off + m) ∧ WroteUpTo sb k (fun j => src (tot + j))
        (fun j => copyin (tot + j)) off (n - tot) m lim s s') s := by
  induction fuel generalizing s off tot with
  | zero => exact ⟨hd, .refl _ _ _, 0, off, rfl, .done (by omega) hmap⟩
  | succ fuel ih =>
    unfold writeiLoop
    by_cases hlt : tot < n
    · rw [if_pos hlt, wp_bind]
      have hbn : off / BSIZE < MAXFILE := Nat.div_lt_of_lt_mul (by rw [Nat.mul_comm]; omega)
      refine (wp_bmap L hd hbn).mono ?_
      rintro addr s1 ⟨⟨hd1, hf1, hg1⟩, haddr, hfull, hsame⟩
      by_cases h0 : addr = 0
      · rw [if_pos h0]
        refine ⟨hd1, hf1, 0, off, rfl, Nat.zero_le _, .inr (.inl rfl),
          fun t ht => absurd ht (by omega),
          .full (hfull h0) ?_ rfl, ?_⟩
        · by_contra hblk
          exact hblk ((hsame hblk).1.symm.trans h0)
        · exact ⟨hg1.copy, fun o ho => (hg1.byte (hmap o ho)).1,
            fun o h1 h2 => absurd h1 (not_le.mpr h2), fun bn h0 => hg1.ref _ h0,
            fun o _ ho => (hg1.byte ho).2⟩
      · rw [if_neg h0]
        obtain rfl := haddr h0
        simp only [bread, wp_bind, wp_read]
        have hpos : 0 < BSIZE - off % BSIZE := Nat.sub_pos_of_lt (Nat.mod_lt _ (by decide))
        generalize hm : min (n - tot) (BSIZE - off % BSIZE) = m
        have hm1 : m ≤ n - tot := by omega
        have hm2 : m ≤ BSIZE - off % BSIZE := by omega
        split
        · next r hcopy =>
          obtain ⟨hd2, hf2, hw⟩ := hd1.copied L hg1 (m := min r m)
            (fun j => src (tot + j)) hmap h0 (by omega)
          refine ⟨hd2, hf1.trans hf2, 0, off + min r m, rfl, Nat.zero_le _, .inr (.inl rfl),
            fun t ht => absurd ht (by omega), .bad r hcopy (by omega) ?_, hw⟩
          rw [Nat.add_zero, Nat.sub_zero, hm]
        · next hcopy =>
          obtain ⟨hd2, hf2, hw⟩ := hd1.copied L hg1 (fun j => src (tot + j)) hmap h0 hm2
          rw [wp_bind, bwrite, Prog.wp_modify]
          refine (@ih _ (off + m) (tot + m) hd2 (by omega) (by omega) (by omega) hw.mapped).mono ?_
          rintro r s' ⟨hd', hf', m', lim, rfl, hw'⟩
          have hlim := hw'.stop.le_lim
          have hle := hw'.le
          have hpiece : tot + m = n ∨ (off + m) % BSIZE = 0 := by
            simp only [BSIZE] at hm ⊢
            omega
          refine ⟨hd', (hf1.trans hf2).trans hf', m + m', lim, by rw [Nat.add_assoc, Nat.add_assoc],
            by omega, ?_, ?_, ?_, ?_⟩
          · rcases hw'.early with hn | rfl | hmod
            · exact .inl (by omega)
            · exact hpiece.imp (fun hn => by omega) .inr
            · exact .inr (.inr (by rw [← Nat.add_assoc]; exact hmod))
          · intro t ht hstart
            by_cases htm : t < m
            · -- no block starts inside this one
              have ht0 : t = 0 := by
                unfold IsPiece at hstart
                simp only [BSIZE] at hstart hm2
                omega
              rw [ht0]
              exact hcopy
            · have hnone := hw'.copied (t - m) (by omega) ?_
              · rwa [Nat.add_assoc, Nat.add_sub_cancel' (by omega)] at hnone
              · rcases hstart with rfl | hmod
                · exact .inl (by omega)
                · refine .inr ?_
                  rwa [Nat.add_assoc, Nat.add_sub_cancel' (by omega)]
          · rw [show n - tot = m + (n - (tot + m)) by omega]
            refine Stop.shift (fun _ => hw.blk_ne) ?_
            simpa only [Nat.add_assoc] using hw'.stop
          · refine hw.trans (by omega) (by omega) ?_
            simpa only [Nat.add_sub_cancel_left, ← Nat.add_assoc] using hw'.wrote
    · rw [if_neg hlt]
      exact ⟨hd, .refl _ _ _, 0, off, rfl, .done (by omega) hmap⟩

/-- What `writei` does to the file: `tot` of `n` bytes are written. -/
structure Written (sb : Superblock) (k : InodeId) (src : ℕ → UInt8) (copyin : ℕ → Option ℕ)
    (off n tot lim : ℕ) (s s' : State) : Prop where
  start : off ≤ (s.inode k).copy.size
  fits : off + n ≤ MAXFILE * BSIZE
  le : tot ≤ n
  early : tot = n ∨ IsPiece off tot
  copied : ∀ t < tot, IsPiece off t → copyin t = none
  stop : Stop sb k copyin off n tot lim s s'
  copy : (s'.inode k).copy = { (s.inode k).copy with
    size := max (s.inode k).copy.size (off + tot), addrs := (s'.inode k).copy.addrs }
  written : ∀ o, off ≤ o → o < lim → (s'.inode k).copy.byte s'.disk o = (src (o - off)).toNat
  blk : ∀ bn, (s.inode k).copy.blk s.disk bn ≠ 0 →
    (s'.inode k).copy.blk s'.disk bn = (s.inode k).copy.blk s.disk bn
  kept : ∀ o < (s.inode k).copy.size, o < off ∨ lim ≤ o →
    (s'.inode k).copy.byte s'.disk o = (s.inode k).copy.byte s.disk o

theorem wp_writei (L : sb.Layout) (hc : Core sb (sb.dinode s.disk) h s) (hpos : 0 < h k)
    (hvalid : (s.inode k).valid = true) {Q : ℤ → State → Prop}
    (hbad : (s.inode k).copy.size < off ∨ MAXFILE * BSIZE < off + n → Q (-1) s)
    (hQ : ∀ tot lim s', Core sb (sb.dinode s'.disk) h s' → Frame sb k s s' →
      Written sb k src copyin off n tot lim s s' → Q tot s') :
    (writei sb k src copyin off n).wp E Q s := by
  have hd := hc.dirty hpos hvalid
  obtain ⟨htype, hcopy⟩ := hc.valid k hpos hvalid
  have hlt := hc.inum k hpos
  have hfull : ∀ o < (s.inode k).copy.size, (s.inode k).copy.blk s.disk (o / BSIZE) ≠ 0 := by
    intro o ho
    rw [hcopy] at ho ⊢
    exact hc.blocks.full _ hlt htype _ (lt_of_le_of_lt (Nat.div_mul_le_self _ _) ho)
  simp only [writei, inode, wp_bind, wp_read]
  split
  · next hoff =>
    refine hbad ?_
    have hmax : MAXFILE * BSIZE = 274432 := rfl
    omega
  · next hoff =>
    split
    · next hmax => exact hbad (.inr hmax)
    · next hmax =>
      rw [wp_bind]
      refine (wp_writeiLoop L hd (Nat.sub_le _ _) (Nat.zero_le _) (by omega) ?_).mono ?_
      · exact fun o ho => hfull o (by omega)
      · rintro ⟨tot, off'⟩ s1 ⟨hd1, hf1, m, lim, heq, hu⟩
        simp only [Nat.zero_add, Prod.mk.injEq, Nat.sub_zero] at heq hu
        obtain ⟨rfl, rfl⟩ := heq
        obtain ⟨htot, hearly, hcopied, hstop, hw⟩ := hu
        have hlim := hstop.le_lim
        have hsize1 : (s1.inode k).copy.size = (s.inode k).copy.size := by rw [hw.copy]
        -- the state before `iupdate`
        have hupdate : ∀ s2, Dirty sb h k s2 → Frame sb k s1 s2 → s2.disk = s1.disk →
            (s2.inode k).copy = { (s1.inode k).copy with
              size := max (s.inode k).copy.size (off + tot) } →
            Q tot { s2 with disk := sb.setDinode s2.disk (s2.inode k).inum (s2.inode k).copy } := by
          intro s2 hd2 hf2 hdisk hcopy2
          obtain ⟨hc3, hf3, -⟩ := hd2.iupdate L
          have haddrs : (s2.inode k).copy.addrs = (s1.inode k).copy.addrs := by rw [hcopy2]
          have hbyte : ∀ o, (s1.inode k).copy.blk s1.disk (o / BSIZE) ≠ 0 →
              (s2.inode k).copy.byte (sb.setDinode s2.disk (s2.inode k).inum (s2.inode k).copy) o =
                (s1.inode k).copy.byte s1.disk o := by
            intro o ho
            rw [← hdisk, ← Dinode.blk_congr haddrs] at ho
            rw [hd2.byte_iupdate L ho, Dinode.byte_congr haddrs, hdisk]
          refine hQ tot lim _ hc3 ((hf1.trans hf2).trans hf3) ⟨by omega, by omega, htot, hearly,
            hcopied, ?_, ?_, ?_, ?_, ?_⟩
          · have hfull3 : Full sb s1.disk →
                Full sb (sb.setDinode s2.disk (s2.inode k).inum (s2.inode k).copy) := by
              intro hfull1 b hb
              rw [L.bit_setDinode _ hd2.inum_lt, hdisk]
              exact hfull1 b hb
            cases hstop with
            | all hn hlim => exact .all hn hlim
            | full hfull1 hnew hlim => exact .full (hfull3 hfull1) hnew hlim
            | bad r hr hlt hlim => exact .bad r hr hlt hlim
          · dsimp only
            rw [hcopy2, hw.copy]
          · intro o h1 h2
            exact (hbyte o (hw.mapped o h2)).trans (hw.written o h1 h2)
          · intro bn h0
            rw [← hw.blk bn h0, ← hdisk, ← Dinode.blk_congr haddrs]
            exact hd2.ref_iupdate L (Slot.of bn)
          · intro o ho hrange
            exact (hbyte o (hw.blk_ne (hfull o ho))).trans (hw.kept o hrange (hfull o ho))
        simp only [setCopy, setInode, wp_bind, wp_read]
        split
        · next hgt =>
          simp only [wp_bind, Prog.wp_modify, wp_pure]
          refine wp_iupdate ?_
          have hresize := hd1.setCopy (x := { (s1.inode k).copy with size := off + tot }) rfl rfl
            (by dsimp only; omega) ?_
          · refine hupdate _ hresize.1 hresize.2 rfl ?_
            dsimp only
            rw [Function.update_self, Nat.max_eq_right (by omega)]
          · intro bn hbn
            have := hw.mapped _ (lt_of_lt_of_le hbn hlim)
            rwa [Nat.mul_div_cancel _ (by decide)] at this
        · next hle =>
          simp only [wp_bind, wp_pure]
          refine wp_iupdate (hupdate _ hd1 (.refl _ _ _) rfl ?_)
          rw [Nat.max_eq_left (by omega), ← hsize1]

end
end Xv6.Fs
