import Xv6.Fs.Layout
import Xv6.Lib.Owns

/-! # The blocks of the files

Every address slot of an allocated inode owns its block. The inodes are given by a function, since
the copy of an inode in memory can be ahead of its dinode.
-/

namespace Xv6.Fs
set_option autoImplicit false
open Function (update update_self update_of_ne)

/-- Where an inode keeps a block number: in `addrs`, or in its indirect block. -/
inductive Slot where
  | addr (k : Fin (NDIRECT + 1))
  | entry (j : ℕ)
  deriving DecidableEq

def Slot.of (bn : ℕ) : Slot :=
  if h : bn < NDIRECT then .addr ⟨bn, by omega⟩ else .entry (bn - NDIRECT)

namespace Dinode

def ref (d : Disk) (x : Dinode) : Slot → ℕ
  | .addr k => x.addrs k
  | .entry j => if x.addrs (Fin.last _) = 0 then 0 else (d (x.addrs (Fin.last _))).getWord j

variable {d : Disk} {x : Dinode}

theorem ref_entry_of_zero (h : x.addrs (Fin.last _) = 0) (j : ℕ) :
    x.ref d (.entry j) = 0 := if_pos h

theorem ref_entry {a : ℕ} (h : x.addrs (Fin.last _) = a) (ha : a ≠ 0) (j : ℕ) :
    x.ref d (.entry j) = (d a).getWord j := by
  subst h
  exact if_neg ha

theorem ref_congr {d' : Disk}
    (hd : x.addrs (Fin.last _) ≠ 0 → d' (x.addrs (Fin.last _)) = d (x.addrs (Fin.last _)))
    (τ : Slot) : x.ref d' τ = x.ref d τ := by
  cases τ with
  | addr k => rfl
  | entry j =>
    by_cases hlast : x.addrs (Fin.last _) = 0
    · rw [ref_entry_of_zero hlast, ref_entry_of_zero hlast]
    · rw [ref_entry rfl hlast, ref_entry rfl hlast, hd hlast]

def blk (d : Disk) (x : Dinode) (bn : ℕ) : ℕ := x.ref d (Slot.of bn)

end Dinode

def own (sb : Superblock) (I : ℕ → Dinode) (d : Disk) (s : ℕ × Slot) : Option ℕ :=
  if s.1 < sb.ninodes ∧ (I s.1).type ≠ 0 ∧ (I s.1).ref d s.2 ≠ 0 then some ((I s.1).ref d s.2)
  else none

/-- Data blocks whose bit is set are those in some slot, in one only; the bits of the other blocks
are set. Every block of a file below its size is there. -/
structure BlockInv (sb : Superblock) (I : ℕ → Dinode) (d : Disk) : Prop where
  metadata : ∀ b < sb.datastart, sb.bit d b = true
  owns : Owns (own sb I d) fun b => sb.IsData b ∧ sb.bit d b = true
  size : ∀ i < sb.ninodes, (I i).type ≠ 0 → (I i).size ≤ MAXFILE * BSIZE
  full : ∀ i < sb.ninodes, (I i).type ≠ 0 → ∀ bn, bn * BSIZE < (I i).size → (I i).blk d bn ≠ 0

section
variable {sb : Superblock} {I I' : ℕ → Dinode} {d d' : Disk} {i : ℕ} {σ : Slot}

theorem own_eq_some {b : ℕ} (h : own sb I d (i, σ) = some b) :
    i < sb.ninodes ∧ (I i).type ≠ 0 ∧ (I i).ref d σ = b ∧ b ≠ 0 := by
  unfold own at h
  split at h
  · next hi =>
    cases h
    exact ⟨hi.1, hi.2.1, rfl, hi.2.2⟩
  · cases h

theorem own_of_ref (hi : i < sb.ninodes) (htype : (I i).type ≠ 0) (href : (I i).ref d σ ≠ 0) :
    own sb I d (i, σ) = some ((I i).ref d σ) := if_pos ⟨hi, htype, href⟩

theorem own_eq_none (h : i < sb.ninodes → (I i).type ≠ 0 → (I i).ref d σ = 0) :
    own sb I d (i, σ) = none := if_neg fun hi => hi.2.2 (h hi.1 hi.2.1)

variable {bn : ℕ}

theorem Slot.of_lt (h : bn < NDIRECT) : Slot.of bn = .addr ⟨bn, by omega⟩ := dif_pos h

theorem Slot.of_direct (h : bn < NDIRECT) : Slot.of bn = .addr (Fin.ofNat _ bn) := by
  rw [Slot.of_lt h]
  refine congrArg Slot.addr (Fin.ext ?_)
  rw [Fin.val_ofNat, Nat.mod_eq_of_lt (by omega)]

theorem Slot.of_ge (h : ¬ bn < NDIRECT) : Slot.of bn = .entry (bn - NDIRECT) := dif_neg h

theorem Slot.of_ne_last (bn : ℕ) : Slot.of bn ≠ .addr (Fin.last _) := by
  by_cases h : bn < NDIRECT
  · rw [Slot.of_lt h]
    intro heq
    have := congrArg Fin.val (Slot.addr.inj heq)
    change bn = NDIRECT at this
    omega
  · rw [Slot.of_ge h]
    nofun

theorem Slot.of_inj {m n : ℕ} (h : Slot.of m = Slot.of n) : m = n := by
  by_cases hmd : m < NDIRECT <;> by_cases hnd : n < NDIRECT
  · rw [Slot.of_lt hmd, Slot.of_lt hnd] at h
    exact congrArg Fin.val (Slot.addr.inj h)
  · rw [Slot.of_lt hmd, Slot.of_ge hnd] at h
    cases h
  · rw [Slot.of_ge hmd, Slot.of_lt hnd] at h
    cases h
  · rw [Slot.of_ge hmd, Slot.of_ge hnd] at h
    have hval := Slot.entry.inj h
    omega

namespace BlockInv

theorem of_ref (h : BlockInv sb I d) (hi : i < sb.ninodes) (htype : (I i).type ≠ 0)
    (href : (I i).ref d σ ≠ 0) :
    sb.IsData ((I i).ref d σ) ∧ sb.bit d ((I i).ref d σ) = true :=
  h.owns.used_of_own (own_of_ref hi htype href)

theorem ref_inj (h : BlockInv sb I d) {j : ℕ} {τ : Slot} (hi : i < sb.ninodes)
    (htype : (I i).type ≠ 0) (hj : j < sb.ninodes) (htype' : (I j).type ≠ 0)
    (href : (I i).ref d σ ≠ 0) (heq : (I i).ref d σ = (I j).ref d τ) : i = j ∧ σ = τ := by
  have hown := own_of_ref hi htype href
  have hown' := own_of_ref hj htype' (heq ▸ href)
  rw [← heq] at hown'
  exact Prod.mk.inj (h.owns.inj _ _ _ hown hown')

theorem fits (L : sb.Layout) (h : BlockInv sb I d) (hi : i < sb.ninodes) (htype : (I i).type ≠ 0) :
    (I i).Fits := by
  constructor
  · exact lt_of_le_of_lt (h.size i hi htype) (by decide)
  · intro k
    by_cases hk : (I i).addrs k = 0
    · rw [hk]
      decide
    · have hdata := (h.of_ref (σ := .addr k) hi htype hk).1.2
      change (I i).addrs k < sb.size at hdata
      have := L.size
      omega

theorem same (h : BlockInv sb I d) (hbit : ∀ b < sb.size, sb.bit d' b = sb.bit d b)
    (htype : ∀ j < sb.ninodes, (I' j).type = (I j).type)
    (href : ∀ j < sb.ninodes, (I j).type ≠ 0 → ∀ τ, (I' j).ref d' τ = (I j).ref d τ)
    (hsize : ∀ j < sb.ninodes, (I j).type ≠ 0 → (I' j).size ≤ MAXFILE * BSIZE)
    (hfull : ∀ j < sb.ninodes, (I j).type ≠ 0 → ∀ bn, bn * BSIZE < (I' j).size →
      (I j).blk d bn ≠ 0) : BlockInv sb I' d' where
  metadata b hb := by
    rw [hbit b (lt_of_lt_of_le hb (Nat.sub_le _ _))]
    exact h.metadata b hb
  owns := by
    refine h.owns.congr ?_ ?_
    · rintro ⟨j, τ⟩
      unfold own
      by_cases hj : j < sb.ninodes
      · by_cases ht : (I j).type = 0
        · rw [if_neg fun hc => hc.2.1 ((htype j hj).trans ht), if_neg fun hc => hc.2.1 ht]
        · rw [htype j hj, href j hj ht]
      · rw [if_neg fun hc => hj hc.1, if_neg fun hc => hj hc.1]
    · intro b
      refine and_congr_right fun hb => ?_
      rw [hbit b hb.2]
  size j hj ht := hsize j hj (htype j hj ▸ ht)
  full j hj ht bn hbn := by
    rw [htype j hj] at ht
    rw [Dinode.blk, href j hj ht]
    exact hfull j hj ht bn hbn

theorem congr_inodes (h : BlockInv sb I d) (hI : ∀ j < sb.ninodes, I' j = I j) :
    BlockInv sb I' d := by
  refine h.same (fun _ _ => rfl) ?_ ?_ ?_ ?_
  · intro j hj
    rw [hI j hj]
  · intro j hj _ τ
    rw [hI j hj]
  · intro j hj ht
    rw [hI j hj]
    exact h.size j hj ht
  · intro j hj ht bn hbn
    rw [hI j hj] at hbn
    exact h.full j hj ht bn hbn

theorem assign (h : BlockInv sb I d) (hi : i < sb.ninodes) (ht : (I i).type ≠ 0) {x : Dinode}
    (htype : x.type = (I i).type) (hsize : x.size = (I i).size) {b : ℕ} (hb : sb.IsData b)
    (hb0 : b ≠ 0) (hfree : sb.bit d b = false) (hσ : (I i).ref d σ = 0)
    (hbit : sb.bit d' b = true) (hbit' : ∀ c < sb.size, c ≠ b → sb.bit d' c = sb.bit d c)
    (href : x.ref d' σ = b) (href' : ∀ τ, τ ≠ σ → x.ref d' τ = (I i).ref d τ)
    (hother : ∀ j < sb.ninodes, (I j).type ≠ 0 → j ≠ i → ∀ τ, (I j).ref d' τ = (I j).ref d τ) :
    BlockInv sb (update I i x) d' := by
  have htype' : ∀ j, (update I i x j).type = (I j).type := by
    intro j
    by_cases hji : j = i
    · rw [hji, update_self, htype]
    · rw [update_of_ne hji]
  have hsize' : ∀ j, (update I i x j).size = (I j).size := by
    intro j
    by_cases hji : j = i
    · rw [hji, update_self, hsize]
    · rw [update_of_ne hji]
  have hrefs : ∀ j < sb.ninodes, (I j).type ≠ 0 → ∀ τ, (j, τ) ≠ (i, σ) →
      (update I i x j).ref d' τ = (I j).ref d τ := by
    intro j hj htj τ hne
    by_cases hji : j = i
    · subst hji
      rw [update_self]
      exact href' τ fun hτ => hne (by rw [hτ])
    · rw [update_of_ne hji]
      exact hother j hj htj hji τ
  have hnew : own sb (update I i x) d' = update (own sb I d) (i, σ) (some b) := by
    funext ⟨j, τ⟩
    by_cases hjτ : (j, τ) = (i, σ)
    · obtain ⟨rfl, rfl⟩ := Prod.mk.inj hjτ
      rw [update_self]
      have hx : (update I j x j).ref d' τ = b := by
        rw [update_self]
        exact href
      rw [own_of_ref hi (by rw [htype']; exact ht) (by rw [hx]; exact hb0), hx]
    · rw [update_of_ne hjτ]
      unfold own
      by_cases hj : j < sb.ninodes
      · by_cases htj : (I j).type = 0
        · rw [if_neg fun hc => hc.2.1 ((htype' j).trans htj), if_neg fun hc => hc.2.1 htj]
        · rw [htype', hrefs j hj htj τ hjτ]
      · rw [if_neg fun hc => hj hc.1, if_neg fun hc => hj hc.1]
  constructor
  · intro c hc
    by_cases hcb : c = b
    · rw [hcb]
      exact hbit
    · rw [hbit' c (lt_of_lt_of_le hc (Nat.sub_le _ _)) hcb]
      exact h.metadata c hc
  · rw [hnew]
    refine h.owns.assign (own_eq_none fun _ _ => hσ) ?_ ?_
    · rintro ⟨-, hset⟩
      rw [hfree] at hset
      cases hset
    · intro c
      by_cases hcb : c = b
      · simp [hcb, hb, hbit]
      · simp only [hcb, false_or]
        refine and_congr_right fun hc => ?_
        rw [hbit' c hc.2 hcb]
  · intro j hj htj
    rw [hsize']
    exact h.size j hj (htype' j ▸ htj)
  · intro j hj htj bn hbn
    rw [htype'] at htj
    rw [hsize'] at hbn
    have hblk := h.full j hj htj bn hbn
    by_cases hjσ : (j, Slot.of bn) = (i, σ)
    · obtain ⟨rfl, rfl⟩ := Prod.mk.inj hjσ
      exact absurd hσ hblk
    · rw [Dinode.blk, hrefs j hj htj _ hjσ]
      exact hblk

theorem reset (h : BlockInv sb I d) {x : Dinode} (hx : ∀ τ, x.ref d' τ = 0) (hsize : x.size = 0)
    (hbit : ∀ c < sb.size, sb.bit d' c = true ↔
      sb.bit d c = true ∧ ∀ τ, own sb I d (i, τ) ≠ some c)
    (hother : ∀ j < sb.ninodes, (I j).type ≠ 0 → j ≠ i → ∀ τ, (I j).ref d' τ = (I j).ref d τ) :
    BlockInv sb (update I i x) d' := by
  constructor
  · intro c hc
    refine (hbit c (lt_of_lt_of_le hc (Nat.sub_le _ _))).mpr ⟨h.metadata c hc, ?_⟩
    intro τ hown
    have hdata := (h.owns.used_of_own hown).1.1
    omega
  · refine h.owns.release (fun s => s.1 = i) ?_ ?_ ?_
    · rintro ⟨j, τ⟩ rfl
      refine own_eq_none fun _ _ => ?_
      rw [update_self]
      exact hx τ
    · rintro ⟨j, τ⟩ hji
      unfold own
      rw [update_of_ne hji]
      by_cases hj : j < sb.ninodes
      · by_cases htj : (I j).type = 0
        · rw [if_neg fun hc => hc.2.1 htj, if_neg fun hc => hc.2.1 htj]
        · rw [hother j hj htj hji]
      · rw [if_neg fun hc => hj hc.1, if_neg fun hc => hj hc.1]
    · intro c
      constructor
      · rintro ⟨hc, hset⟩
        obtain ⟨hset, hgone⟩ := (hbit c hc.2).mp hset
        refine ⟨⟨hc, hset⟩, ?_⟩
        rintro ⟨j, τ⟩ rfl
        exact hgone τ
      · rintro ⟨⟨hc, hset⟩, hgone⟩
        exact ⟨hc, (hbit c hc.2).mpr ⟨hset, fun τ => hgone (i, τ) rfl⟩⟩
  · intro j hj htj
    by_cases hji : j = i
    · rw [hji, update_self, hsize]
      exact Nat.zero_le _
    · rw [update_of_ne hji] at htj ⊢
      exact h.size j hj htj
  · intro j hj htj bn hbn
    by_cases hji : j = i
    · rw [hji, update_self, hsize] at hbn
      exact absurd hbn (Nat.not_lt_zero _)
    · rw [update_of_ne hji] at htj hbn ⊢
      rw [Dinode.blk, hother j hj htj hji]
      exact h.full j hj htj bn hbn

end BlockInv

end
end Xv6.Fs
