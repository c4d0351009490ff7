import Mathlib.Tactic.Abel
import Xv6.Lib.RefPool
import Xv6.Vm.Space

/-! # Who uses the pages

A page table has a sole share of each of its table pages and a shared one for each valid entry
below the trapframe. The lemmas of this module say how the allocator and the functions that change
page tables move shares, and which pages keep their contents: `M` stands for the shares of all
others.
-/

namespace Xv6.Vm
set_option autoImplicit false
open Function (update update_self update_of_ne)
open Kmem RefPool

/-- The reference counts and the free list are exact for the shares `M`. -/
def KOk (R : Ram) (k : Kmem) (M : Multiset (Share Ppn)) : Prop :=
  Exact R.Allocatable k.refCount k.freelist M

def Keeps (M : Multiset (Share Ppn)) (k k' : Kmem) : Prop :=
  ∀ pg, 0 < uses M pg → k'.data pg = k.data pg

variable {M : Multiset (Share Ppn)} {pt : PageTable} {i j : ℕ}

theorem Keeps.refl {k : Kmem} : Keeps M k k := fun _ _ => rfl

theorem Keeps.trans {k1 k2 k3 : Kmem} (h : Keeps M k1 k2) (h' : Keeps M k2 k3) : Keeps M k1 k3 :=
  fun pg hp => (h' pg hp).trans (h pg hp)

theorem Keeps.mono {N : Multiset (Share Ppn)} {k k' : Kmem} (h : Keeps M k k') (hN : N ≤ M) :
    Keeps N k k' := by
  intro pg hp
  refine h pg (lt_of_lt_of_le hp ?_)
  exact Multiset.count_le_of_le _ (Multiset.map_le_map hN)

section Alloc
variable {R : Ram} {k k' : Kmem} {M : Multiset (Share Ppn)}

theorem kalloc_none (hk : kalloc k = (none, k')) (hM : KOk R k M) :
    KOk R k' M ∧ k'.data = k.data ∧ k'.oom = true := by
  cases hf : k.freelist with
  | nil =>
    simp only [kalloc, hf, Prod.mk.injEq, true_and] at hk
    subst hk
    unfold KOk at hM ⊢
    rw [hf] at hM
    exact ⟨hM, rfl, rfl⟩
  | cons r next => simp [kalloc, hf] at hk

theorem kalloc_some {pg : Ppn} (hk : kalloc k = (some pg, k')) (hM : KOk R k M) :
    (∀ x : Share Ppn, x.page = pg → KOk R k' (x ::ₘ M)) ∧ uses M pg = 0 ∧
      (∀ q, q ≠ pg → k'.data q = k.data q) ∧ k'.oom = k.oom := by
  cases hf : k.freelist with
  | nil => simp [kalloc, hf] at hk
  | cons r next =>
    simp only [kalloc, hf, Prod.mk.injEq, Option.some.injEq] at hk
    obtain ⟨rfl, rfl⟩ := hk
    unfold KOk at hM ⊢
    rw [hf] at hM
    refine ⟨fun x hx => hM.alloc hx, (hM.uses_of_mem_free (by simp)).1, ?_, rfl⟩
    intro q hq
    simp [refInc, memset, hq]

theorem Keeps.of_unused (pg : Ppn) (hzero : uses M pg = 0)
    (hdata : ∀ q, q ≠ pg → k'.data q = k.data q) : Keeps M k k' := by
  intro q hq
  refine hdata q ?_
  rintro rfl
  omega

theorem kalloc_keeps {pg : Ppn} (hk : kalloc k = (some pg, k')) (hM : KOk R k M) :
    Keeps M k k' := by
  obtain ⟨-, hzero, hdata, -⟩ := kalloc_some hk hM
  exact .of_unused _ hzero hdata

/-- What giving up shares does: the counts are exact for the shares that are left. -/
def Freed (R : Ram) (M : Multiset (Share Ppn)) (k k' : Kmem) : Prop :=
  KOk R k' M ∧ Keeps M k k' ∧ k'.oom = k.oom

theorem kfree_ensures {x : Share Ppn} (hM : KOk R k (x ::ₘ M)) :
    (kfree R x.page k).Ensures (fun _ => False) (Freed R M k) := by
  have hv := hM.own_valid x (Multiset.mem_cons_self x M)
  have hdrop := hM.drop
  rw [kfree, if_neg (not_not.mpr hv)]
  simp only [update_self]
  split
  · next hzero =>
    rw [if_pos hzero] at hdrop
    refine ⟨hdrop, ?_, rfl⟩
    intro q hq
    have hne : q ≠ x.page := by
      rintro rfl
      have := hdrop.ref_eq x.page hv
      rw [update_self, hzero] at this
      omega
    simp [memset, hne]
  · next hpos =>
    rw [if_neg hpos] at hdrop
    exact ⟨hdrop, Keeps.refl, rfl⟩

end Alloc

/-! ## The shares of a page table -/

def tableShare : Option Ppn → Multiset (Share Ppn)
  | none => 0
  | some pg => {.sole pg}

/-- The share of the page that a leaf entry maps; a page that is not marked copy-on-write has no
other user. -/
def Pte.share (e : Pte) : Multiset (Share Ppn) :=
  if e.flags.v then {if e.flags.cow then .shared e.ppn else .sole e.ppn} else 0

@[simp] theorem Pte.share_zero : Pte.zero.share = 0 := by simp [Pte.share, Pte.zero, Flags.none]

def PageTable.shares (pt : PageTable) : Multiset (Share Ppn) :=
  .sole pt.root ::ₘ (∑ i ∈ Finset.range NPTE, tableShare (pt.level1 i) +
    (∑ j ∈ Finset.range (NPTE * NPTE), tableShare (pt.level0 j) +
      ∑ v ∈ Finset.range TRAPFRAME, (pt.pte v).share))

/-- Entries of tables that do not exist are empty, and so are invalid entries. -/
structure PageTable.Wf (pt : PageTable) : Prop where
  level1_lt : ∀ i, pt.level1 i ≠ none → i < NPTE
  level0_parent : ∀ j, pt.level0 j ≠ none → pt.level1 (j / NPTE) ≠ none
  pte_parent : ∀ v, pt.pte v ≠ .zero → pt.level0 (v / NPTE) ≠ none
  pte_zero : ∀ v, (pt.pte v).flags.v = false → pt.pte v = .zero

theorem PageTable.Wf.level0_lt (h : pt.Wf) (hj : pt.level0 j ≠ none) : j < NPTE * NPTE := by
  have := h.level1_lt _ (h.level0_parent j hj)
  unfold NPTE at *
  omega

theorem setPte_shares (pt : PageTable) {v : ℕ} (hv : v < TRAPFRAME) (e : Pte) :
    (pt.setPte v e).shares + (pt.pte v).share = e.share + pt.shares := by
  have hsum := sum_update_add (Finset.mem_range.mpr hv) (fun v => (pt.pte v).share) e.share
  have hupd : (fun w => update (fun v => (pt.pte v).share) v e.share w) =
      fun w => (update pt.pte v e w).share := by
    funext w
    by_cases hw : w = v
    · simp [hw]
    · simp [hw]
  rw [hupd] at hsum
  simp only [PageTable.shares, PageTable.setPte]
  rw [← Multiset.singleton_add, ← Multiset.singleton_add]
  simp only [add_assoc]
  rw [hsum]
  abel

theorem setPte_shares_high {v : ℕ} (hv : TRAPFRAME ≤ v) (e : Pte) :
    (pt.setPte v e).shares = pt.shares := by
  have hsum : ∑ w ∈ Finset.range TRAPFRAME, (update pt.pte v e w).share =
      ∑ w ∈ Finset.range TRAPFRAME, (pt.pte w).share := by
    refine Finset.sum_congr rfl fun w hw => ?_
    have : w ≠ v := by
      have := Finset.mem_range.mp hw
      omega
    simp [this]
  simp only [PageTable.shares, PageTable.setPte]
  rw [hsum]

theorem sum_tableShare_update {f : ℕ → Option Ppn} {n : ℕ} (hi : i < n) (hf : f i = none)
    (pg : Ppn) : ∑ k ∈ Finset.range n, tableShare (update f i (some pg) k) =
      {.sole pg} + ∑ k ∈ Finset.range n, tableShare (f k) := by
  have hsum := sum_update_add (Finset.mem_range.mpr hi) (fun k => tableShare (f k)) {.sole pg}
  have hupd : (fun k => update (fun k => tableShare (f k)) i {.sole pg} k) =
      fun k => tableShare (update f i (some pg) k) := by
    funext k
    by_cases hk : k = i
    · simp [hk, tableShare]
    · simp [hk]
  rw [hupd, hf] at hsum
  simpa [tableShare] using hsum

theorem addLevel1_shares (hwf : pt.Wf) (hi : i < NPTE) (hnone : pt.level1 i = none) (pg : Ppn) :
    (pt.addLevel1 i pg).shares = .sole pg ::ₘ pt.shares := by
  have hlevel0 : (pt.addLevel1 i pg).level0 = pt.level0 := by
    funext j
    simp only [PageTable.addLevel1]
    split
    · next hj =>
      by_contra hne
      exact hwf.level0_parent j (Ne.symm hne) (hj ▸ hnone)
    · rfl
  simp only [PageTable.shares, hlevel0]
  rw [show (pt.addLevel1 i pg).level1 = update pt.level1 i (some pg) from rfl,
    sum_tableShare_update hi hnone]
  simp only [PageTable.addLevel1, ← Multiset.singleton_add]
  abel

theorem addLevel0_pte (hwf : pt.Wf) (hnone : pt.level0 j = none) (pg : Ppn) :
    (pt.addLevel0 j pg).pte = pt.pte := by
  funext v
  simp only [PageTable.addLevel0]
  split
  · next hv =>
    by_contra hne
    exact hwf.pte_parent v (Ne.symm hne) (hv ▸ hnone)
  · rfl

theorem addLevel0_shares (hwf : pt.Wf) (hj : j < NPTE * NPTE) (hnone : pt.level0 j = none)
    (pg : Ppn) : (pt.addLevel0 j pg).shares = .sole pg ::ₘ pt.shares := by
  simp only [PageTable.shares, addLevel0_pte hwf hnone]
  rw [show (pt.addLevel0 j pg).level0 = update pt.level0 j (some pg) from rfl,
    sum_tableShare_update hj hnone]
  simp only [PageTable.addLevel0, ← Multiset.singleton_add]
  abel

def PageTable.tables (pt : PageTable) : Multiset (Share Ppn) :=
  .sole pt.root ::ₘ (∑ i ∈ Finset.range NPTE, tableShare (pt.level1 i) +
    ∑ j ∈ Finset.range (NPTE * NPTE), tableShare (pt.level0 j))

def PageTable.entries (pt : PageTable) : Multiset (Share Ppn) :=
  ∑ v ∈ Finset.range TRAPFRAME, (pt.pte v).share

theorem PageTable.shares_eq (pt : PageTable) : pt.shares = pt.tables + pt.entries := by
  rw [shares, tables, entries, Multiset.cons_add, add_assoc]

attribute [irreducible] PageTable.shares PageTable.tables PageTable.entries

/-! ## Panics about the shape of a page table -/

/-- The messages of the panics that a missing or an unexpected mapping leads to. -/
def shapePanics : List String :=
  ["uvmunmap: walk", "uvmunmap: not mapped", "uvmunmap: not a leaf", "mappages: remap",
    "freewalk: leaf", "uvmcopy: pte should exist", "uvmcopy: page not present"]

/-- The failures that are left on a machine with the memory of `memlayout.h`. -/
def Expected (R : Ram) (e : Failure) : Prop :=
  R.stop ≤ PHYSTOP → ∀ msg ∈ shapePanics, e ≠ .panic msg

theorem expected_fault (R : Ram) : Expected R .fault := by
  intro _ msg _ h
  cases h

theorem expected_panic (R : Ram) {msg : String} (hmsg : msg ∉ shapePanics) :
    Expected R (.panic msg) := by
  intro _ m hm h
  cases h
  exact hmsg hm

/-! ## `walk` and `mappages` -/

theorem addLevel1_wf (hwf : pt.Wf) (hi : i < NPTE) (hnone : pt.level1 i = none) (pg : Ppn) :
    (pt.addLevel1 i pg).Wf := by
  have hlevel0 : ∀ j, (pt.addLevel1 i pg).level0 j ≠ none → pt.level0 j ≠ none ∧ j / NPTE ≠ i := by
    intro j hj
    simp only [PageTable.addLevel1] at hj
    split at hj
    · exact absurd rfl hj
    · next hne => exact ⟨hj, hne⟩
  refine ⟨?_, ?_, ?_, hwf.pte_zero⟩
  · intro i' hi'
    by_cases h : i' = i
    · exact h ▸ hi
    · exact hwf.level1_lt i' (by simpa [PageTable.addLevel1, h] using hi')
  · intro j hj
    obtain ⟨hj', hne⟩ := hlevel0 j hj
    simpa [PageTable.addLevel1, hne] using hwf.level0_parent j hj'
  · intro v hv
    have h0 := hwf.pte_parent v hv
    have hne : v / NPTE / NPTE ≠ i := by
      rintro rfl
      exact hwf.level0_parent _ h0 hnone
    simpa [PageTable.addLevel1, hne] using h0

theorem addLevel0_wf (hwf : pt.Wf) (hparent : pt.level1 (j / NPTE) ≠ none)
    (hnone : pt.level0 j = none) (pg : Ppn) : (pt.addLevel0 j pg).Wf := by
  have hpte := addLevel0_pte hwf hnone pg
  refine ⟨hwf.level1_lt, ?_, ?_, ?_⟩
  · intro j' hj'
    by_cases h : j' = j
    · exact h ▸ hparent
    · exact hwf.level0_parent j' (by simpa [PageTable.addLevel0, h] using hj')
  · intro v hv
    rw [hpte] at hv
    have := hwf.pte_parent v hv
    by_cases h : v / NPTE = j
    · simp [PageTable.addLevel0, h]
    · simpa [PageTable.addLevel0, h] using this
  · intro v hv
    rw [hpte] at hv ⊢
    exact hwf.pte_zero v hv

/-- What `walk` does to the allocator and to the page table `pt`. -/
structure WalkPost (R : Ram) (M : Multiset (Share Ppn)) (k : Kmem) (pt : PageTable) (k' : Kmem)
    (pt' : PageTable) : Prop where
  exact : KOk R k' (pt'.shares + M)
  wf : pt'.Wf
  pte : pt'.pte = pt.pte
  keeps : Keeps (pt.shares + M) k k'
  oom : k'.oom = false → k.oom = false

section Walk
variable {R : Ram} {M : Multiset (Share Ppn)} {k : Kmem} {pt : PageTable} {v : ℕ} {k' : Kmem}
  {pt' : PageTable}

theorem WalkPost.refl (hE : KOk R k (pt.shares + M)) (hwf : pt.Wf) : WalkPost R M k pt k pt :=
  ⟨hE, hwf, rfl, Keeps.refl, id⟩

theorem WalkPost.trans {k1 k2 : Kmem} {pt1 pt2 : PageTable} (h : WalkPost R M k pt k1 pt1)
    (hle : pt.shares ≤ pt1.shares) (h' : WalkPost R M k1 pt1 k2 pt2) :
    WalkPost R M k pt k2 pt2 :=
  ⟨h'.exact, h'.wf, h'.pte.trans h.pte,
    h.keeps.trans (h'.keeps.mono (add_le_add_left hle M)), fun ho => h.oom (h'.oom ho)⟩

section
variable (hE : KOk R k (pt.shares + M))
include hE

theorem WalkPost.alloc {pg : Ppn} (hk : kalloc k = (some pg, k'))
    (hsh : pt'.shares = .sole pg ::ₘ pt.shares) (hwf : pt'.Wf) (hpte : pt'.pte = pt.pte) :
    WalkPost R M k pt k' pt' := by
  obtain ⟨hx, -, -, hoom⟩ := kalloc_some hk hE
  refine ⟨?_, hwf, hpte, kalloc_keeps hk hE, fun ho => hoom ▸ ho⟩
  rw [hsh, Multiset.cons_add]
  exact hx (.sole pg) rfl

theorem WalkPost.allocNone (hwf : pt.Wf) (hk : kalloc k = (none, k')) :
    WalkPost R M k pt k' pt := by
  obtain ⟨hE', hdata, hoom⟩ := kalloc_none hk hE
  refine ⟨hE', hwf, rfl, fun pg _ => by rw [hdata], fun ho => ?_⟩
  simp [hoom] at ho

theorem walk1_post (hwf : pt.Wf) (hv : v < MAXVPN) {b : Bool}
    (hw : walk1 true v k pt = (b, k', pt')) : WalkPost R M k pt k' pt' ∧ pt.shares ≤ pt'.shares ∧
      (b = true → pt'.level1 (v / NPTE / NPTE) ≠ none) ∧ (b = false → k'.oom = true) := by
  have hi : v / NPTE / NPTE < NPTE := by
    simp only [MAXVPN, NPTE] at hv ⊢
    omega
  unfold walk1 at hw
  split at hw
  · next pg hsome =>
    obtain ⟨rfl, rfl, rfl⟩ := hw
    exact ⟨.refl hE hwf, le_rfl, fun _ => by simp [hsome], by simp⟩
  · next hnone =>
    rw [if_pos rfl] at hw
    split at hw
    · next k1 hk =>
      obtain ⟨rfl, rfl, rfl⟩ := hw
      exact ⟨.allocNone hE hwf hk, le_rfl, by simp, fun _ => (kalloc_none hk hE).2.2⟩
    · next pg k1 hk =>
      obtain ⟨rfl, rfl, rfl⟩ := hw
      have hsh := addLevel1_shares hwf hi hnone pg
      refine ⟨.alloc hE hk hsh (addLevel1_wf hwf hi hnone pg) (rfl), ?_, ?_, by simp⟩
      · rw [hsh]
        exact Multiset.le_cons_self _ _
      · intro _
        simp [PageTable.addLevel1]

theorem walk0_post (hwf : pt.Wf) (hv : v < MAXVPN) (hparent : pt.level1 (v / NPTE / NPTE) ≠ none)
    {b : Bool} (hw : walk0 true v k pt = (b, k', pt')) :
    WalkPost R M k pt k' pt' ∧ pt'.level1 = pt.level1 ∧
      (b = true → pt'.level0 (v / NPTE) ≠ none) ∧ (b = false → k'.oom = true) := by
  have hj : v / NPTE < NPTE * NPTE := by
    simp only [MAXVPN, NPTE] at hv ⊢
    omega
  unfold walk0 at hw
  split at hw
  · next pg hsome =>
    obtain ⟨rfl, rfl, rfl⟩ := hw
    exact ⟨.refl hE hwf, rfl, fun _ => by simp [hsome], by simp⟩
  · next hnone =>
    rw [if_pos rfl] at hw
    split at hw
    · next k1 hk =>
      obtain ⟨rfl, rfl, rfl⟩ := hw
      exact ⟨.allocNone hE hwf hk, rfl, by simp, fun _ => (kalloc_none hk hE).2.2⟩
    · next pg k1 hk =>
      obtain ⟨rfl, rfl, rfl⟩ := hw
      refine ⟨.alloc hE hk (addLevel0_shares hwf hj hnone pg) (addLevel0_wf hwf hparent hnone pg)
        (addLevel0_pte hwf hnone pg), rfl, ?_, by simp⟩
      intro _
      simp [PageTable.addLevel0]

theorem walk_alloc_ensures (hwf : pt.Wf) :
    (walk true v k pt).Ensures (Expected R) fun r => WalkPost R M k pt r.2.1 r.2.2 ∧
      (r.1 = true → r.2.2.reaches v = true) ∧ (r.1 = false → r.2.1.oom = true) := by
  unfold walk
  split
  · exact expected_panic R (by decide)
  · next hv =>
    have hv : v < MAXVPN := not_le.mp hv
    rcases h1 : walk1 true v k pt with ⟨b1, k1, pt1⟩
    obtain ⟨hpost, hle, hfound, hoom⟩ := walk1_post hE hwf hv h1
    cases b1 with
    | false => exact ⟨hpost, by simp, fun _ => hoom rfl⟩
    | true =>
      rcases h0 : walk0 true v k1 pt1 with ⟨b0, k0, pt0⟩
      obtain ⟨hpost', hsame, hfound', hoom'⟩ :=
        walk0_post hpost.exact hpost.wf hv (hfound rfl) h0
      show WalkPost R M k pt (walk0 true v k1 pt1).2.1 (walk0 true v k1 pt1).2.2 ∧ _
      simp only [h0]
      refine ⟨hpost.trans hle hpost', ?_, hoom'⟩
      intro hb
      have h₁ := hfound rfl
      rw [← hsame] at h₁
      simp [PageTable.reaches, Option.isSome_iff_ne_none, h₁, hfound' hb]

end

theorem walk_find (v : ℕ) (k : Kmem) (pt : PageTable) : walk false v k pt =
    if MAXVPN ≤ v then .fail (.panic "walk") else .ok (pt.reaches v, k, pt) := by
  unfold walk
  split
  · rfl
  · cases h1 : pt.level1 (v / NPTE / NPTE) with
    | none => simp [walk1, h1, PageTable.reaches]; rfl
    | some pg =>
      cases h0 : pt.level0 (v / NPTE) with
      | none | some pg' => simp [walk1, walk0, h1, h0, PageTable.reaches]; rfl

theorem setPte_wf (hwf : pt.Wf) {e : Pte} (hr : pt.reaches v = true)
    (he : e.flags.v = false → e = .zero) : (pt.setPte v e).Wf := by
  simp only [PageTable.reaches, Bool.and_eq_true, Option.isSome_iff_ne_none] at hr
  refine ⟨hwf.level1_lt, hwf.level0_parent, ?_, ?_⟩
  · intro w hw
    by_cases h : w = v
    · exact h ▸ hr.2
    · exact hwf.pte_parent w (by simpa [PageTable.setPte, h] using hw)
  · intro w hw
    by_cases h : w = v
    · subst h
      simp only [PageTable.setPte, update_self] at hw ⊢
      exact he hw
    · simp only [PageTable.setPte, update_of_ne h] at hw ⊢
      exact hwf.pte_zero w hw

theorem mapPage_ensures {pa : Ppn} {perm : Flags} (hwf : pt.Wf)
    (hfree : (pt.pte v).flags.v = true → (pt.pte v).flags.cow = true)
    (hE : KOk R k (pt.shares + M)) :
    (mapPage v pa perm k pt).Ensures (Expected R) fun r =>
      ∃ pt1, WalkPost R M k pt r.2.1 pt1 ∧
        (r.1 = true → pt1.reaches v = true ∧ r.2.2 = pt1.setPte v ⟨pa, { perm with v := true }⟩) ∧
        (r.1 = false → r.2.2 = pt1 ∧ r.2.1.oom = true) := by
  refine Outcome.ensures_bind ((walk_alloc_ensures hE hwf).mono ?_)
  rintro ⟨found, k1, pt1⟩ ⟨hpost, hreach, hoom⟩
  cases found with
  | false => exact ⟨pt1, hpost, by simp, fun _ => ⟨rfl, hoom rfl⟩⟩
  | true =>
    simp only [Bool.not_true, Bool.false_eq_true, if_false]
    rw [← hpost.pte] at hfree
    rw [if_neg (by simpa using hfree)]
    exact ⟨pt1, hpost, fun _ => ⟨hreach rfl, rfl⟩, by simp⟩

theorem mapPage_found {pa : Ppn} {perm : Flags} (hr : pt.reaches v = true) (hv : v < MAXVPN) :
    mapPage v pa perm k pt =
      if (pt.pte v).flags.v && !(pt.pte v).flags.cow then .fail (.panic "mappages: remap")
      else .ok (true, k, pt.setPte v ⟨pa, { perm with v := true }⟩) := by
  simp only [PageTable.reaches, Bool.and_eq_true, Option.isSome_iff_exists] at hr
  obtain ⟨⟨p1, h1⟩, ⟨p0, h0⟩⟩ := hr
  have hwalk : walk true v k pt = .ok (true, k, pt) := by
    rw [walk, if_neg (by omega)]
    simp only [walk1, h1, walk0, h0]
    rfl
  rw [mapPage, hwalk]
  rfl

end Walk
end Xv6.Vm
