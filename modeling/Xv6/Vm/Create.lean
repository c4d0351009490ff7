import Xv6.Vm.Grow

/-! # Creating and freeing page tables -/

namespace Xv6.Vm
set_option autoImplicit false
open Function (update update_of_ne update_eq_self update_idem)
open Kmem RefPool
open Outcome (ensures_bind ensures_pure)
open Multiset (singleton_add)

section
variable {R : Ram} {M : Multiset (Share Ppn)} {k : Kmem} {pt : PageTable} {v n : ℕ}

/-! ## `freewalk` -/

theorem Freed.refl (hE : KOk R k M) : Freed R M k k := ⟨hE, Keeps.refl, rfl⟩

theorem Freed.trans {k1 k2 : Kmem} {N : Multiset (Share Ppn)} (h : Freed R (N + M) k k1)
    (h' : Freed R M k1 k2) : Freed R M k k2 :=
  ⟨h'.1, h.2.1.right.trans h'.2.1, h'.2.2.trans h.2.2⟩

theorem foldlM_freed {β : Type} {f : Kmem → β → Outcome Failure Kmem}
    {g : β → Multiset (Share Ppn)}
    (hf : ∀ (k : Kmem) (b : β) (N : Multiset (Share Ppn)), KOk R k (g b + N) →
      (f k b).Ensures (Expected R) (Freed R N k)) (l : List β) (k : Kmem)
    (hE : KOk R k ((l.map g).sum + M)) :
    (l.foldlM f k).Ensures (Expected R) (Freed R M k) := by
  induction l generalizing k with
  | nil =>
    simp only [List.map_nil, List.sum_nil, zero_add] at hE
    exact Freed.refl hE
  | cons b l ih =>
    rw [List.map_cons, List.sum_cons, add_assoc] at hE
    rw [List.foldlM_cons]
    refine ensures_bind ((hf k b _ hE).mono ?_)
    intro k1 h1
    exact (ih k1 h1.1).mono fun k2 h2 => h1.trans h2

theorem kfree_freed {pg : Ppn} (hE : KOk R k (.sole pg ::ₘ M)) :
    (kfree R pg k).Ensures (Expected R) (Freed R M k) :=
  (kfree_ensures hE).weaken fun _ h => h.elim

theorem freeLevel0_ensures (hnone : ∀ v, (pt.pte v).flags.v = false) (k : Kmem) (j : ℕ)
    (N : Multiset (Share Ppn)) (hE : KOk R k (tableShare (pt.level0 j) + N)) :
    (freeLevel0 R pt k j).Ensures (Expected R) (Freed R N k) := by
  unfold freeLevel0
  cases hj : pt.level0 j with
  | none =>
    rw [hj, tableShare, zero_add] at hE
    exact Freed.refl hE
  | some pg =>
    rw [hj, tableShare, singleton_add] at hE
    dsimp only
    rw [if_neg (by simp [hnone])]
    exact kfree_freed hE

/-- The shares of the level-1 table `i` and of the tables below it. -/
def level1Shares (pt : PageTable) (i : ℕ) : Multiset (Share Ppn) :=
  ((List.range' (NPTE * i) NPTE).map fun j => tableShare (pt.level0 j)).sum +
    tableShare (pt.level1 i)

theorem freeLevel1_ensures (hwf : pt.Wf) (hnone : ∀ v, (pt.pte v).flags.v = false) (k : Kmem)
    (i : ℕ) (N : Multiset (Share Ppn)) (hE : KOk R k (level1Shares pt i + N)) :
    (freeLevel1 R pt k i).Ensures (Expected R) (Freed R N k) := by
  unfold freeLevel1
  cases hi : pt.level1 i with
  | none =>
    -- A missing table has none below it.
    have hzero : level1Shares pt i = 0 := by
      rw [level1Shares, hi, tableShare, add_zero]
      refine List.sum_eq_zero fun x hx => ?_
      obtain ⟨j, hj, rfl⟩ := List.mem_map.mp hx
      obtain ⟨d, hd, rfl⟩ := List.mem_range'.mp hj
      have hparent : pt.level0 (NPTE * i + 1 * d) = none := by
        by_contra hne
        have h := hwf.level0_parent _ hne
        rw [show (NPTE * i + 1 * d) / NPTE = i by unfold NPTE at *; omega] at h
        exact h hi
      rw [hparent]
      rfl
    rw [hzero, zero_add] at hE
    exact Freed.refl hE
  | some pg =>
    rw [level1Shares, hi, tableShare, add_assoc, singleton_add] at hE
    refine ensures_bind ((foldlM_freed (freeLevel0_ensures hnone) _ k hE).mono ?_)
    intro k1 h1
    refine (kfree_freed h1.1).mono fun k2 h2 => ?_
    rw [← singleton_add] at h1
    exact h1.trans h2

theorem sum_level1Shares (pt : PageTable) (a : ℕ) : ((List.range a).map (level1Shares pt)).sum =
    ∑ i ∈ Finset.range a, tableShare (pt.level1 i) +
      ∑ j ∈ Finset.range (NPTE * a), tableShare (pt.level0 j) := by
  induction a with
  | zero => simp
  | succ a ih =>
    have hlevel0 : ((List.range' (NPTE * a) NPTE).map fun j => tableShare (pt.level0 j)).sum =
        ∑ x ∈ Finset.range NPTE, tableShare (pt.level0 (NPTE * a + x)) := by
      rw [List.range'_eq_map_range, List.map_map]
      rfl
    rw [List.range_succ, List.map_append, List.sum_append, ih, Finset.sum_range_succ, Nat.mul_succ,
      Finset.sum_range_add]
    simp only [List.map_cons, List.map_nil, List.sum_cons, List.sum_nil, level1Shares, hlevel0]
    abel

theorem freewalk_ensures (hwf : pt.Wf) (hnone : ∀ v, (pt.pte v).flags.v = false)
    (hE : KOk R k (pt.shares + M)) :
    (freewalk R pt k).Ensures (Expected R) (Freed R M k) := by
  have hentries : pt.entries = 0 := by
    rw [PageTable.entries]
    refine Finset.sum_eq_zero fun v _ => ?_
    simp [Pte.share, hnone v]
  have htables : pt.tables = ((List.range NPTE).map (level1Shares pt)).sum + {.sole pt.root} := by
    rw [sum_level1Shares, PageTable.tables, ← singleton_add, add_comm]
  rw [PageTable.shares_eq, hentries, add_zero, htables, add_assoc, singleton_add] at hE
  refine ensures_bind ((foldlM_freed (freeLevel1_ensures hwf hnone) _ k hE).mono ?_)
  intro k1 h1
  refine (kfree_freed h1.1).mono fun k2 h2 => ?_
  rw [← singleton_add] at h1
  exact h1.trans h2

theorem uvmfree_ensures {sz : ℕ} (hwf : pt.Wf) (hsz : pgroundup sz ≤ TRAPFRAME)
    (hvalid : ∀ v, (pt.pte v).flags.v = true ↔ v < pgroundup sz)
    (hleaf : ∀ v, (pt.pte v).flags.v = true → (pt.pte v).flags.r = true)
    (hE : KOk R k (pt.shares + M)) :
    (uvmfree R pt sz k).Ensures (Expected R) (Freed R M k) := by
  unfold uvmfree
  split
  · have hmapped : ∀ v, 0 ≤ v → v < 0 + pgroundup sz →
        (pt.pte v).flags.v = true ∧ (pt.pte v).flags.r = true := by
      intro v _ hv
      have he := (hvalid v).mpr (by omega)
      exact ⟨he, hleaf v he⟩
    refine ensures_bind ((uvmunmap_free_ensures hwf (by omega) hmapped hE).mono ?_)
    rintro ⟨k1, pt1⟩ h1
    refine (freewalk_ensures h1.wf ?_ h1.exact).mono fun k2 h2 => ?_
    · intro v
      rw [h1.pte v]
      by_cases hlt : v < pgroundup sz
      · rw [if_pos (by omega)]
        rfl
      · rw [if_neg (by omega)]
        simpa using fun h => hlt ((hvalid v).mp h)
    · exact Freed.trans ⟨h1.exact, h1.keeps, h1.oom⟩ h2
  · next hpos =>
    have hzero : pgroundup sz = 0 := by
      simp only [pgroundup, PGSIZE]
      omega
    refine ensures_bind (ensures_pure.mpr ?_)
    refine freewalk_ensures hwf ?_ hE
    intro v
    by_contra h
    have := (hvalid v).mp (by simpa using h)
    omega

theorem uvmunmap_high_ensures (hwf : pt.Wf) (hv : TRAPFRAME ≤ v) (hlt : v < MAXVPN)
    (he : (pt.pte v).flags.v = true) (hr : (pt.pte v).flags.r = true) :
    (uvmunmap R false 1 v k pt).Ensures (Expected R) fun r =>
      r.1 = k ∧ r.2.Wf ∧ r.2.shares = pt.shares ∧ r.2.pte = update pt.pte v .zero := by
  rw [uvmunmap, walk_find, if_neg (by omega)]
  refine ensures_bind (Outcome.ensures_ok.mpr ?_)
  dsimp only
  rw [hwf.reaches he, he, if_neg (by simp), if_neg (by simp), if_neg (Pte.ne_table hr)]
  refine ensures_bind (ensures_pure.mpr ?_)
  exact ⟨rfl, setPte_wf hwf (hwf.reaches he) fun _ => rfl, setPte_shares_high hv _, rfl⟩

theorem trapframe_lt_trampoline : TRAPFRAME < TRAMPOLINE := by
  simp [TRAPFRAME, TRAMPOLINE, MAXVPN]

theorem trampoline_lt_maxvpn : TRAMPOLINE < MAXVPN := by
  simp [TRAMPOLINE, MAXVPN]

theorem procFreepagetable_ensures {sz : ℕ} (hok : PtOk pt (pgroundup sz))
    (hE : KOk R k (pt.shares + M)) :
    (procFreepagetable R pt sz k).Ensures (Expected R) (Freed R M k) := by
  have htop := trapframe_lt_trampoline
  have hmax := trampoline_lt_maxvpn
  have hle := hok.size_le
  have htramp : (pt.pte TRAMPOLINE).flags.v = true :=
    (hok.above TRAMPOLINE htop.le).mpr (.inr rfl)
  refine ensures_bind ((uvmunmap_high_ensures hok.wf htop.le hmax htramp
    (hok.leaf _ htramp)).mono ?_)
  rintro ⟨k1, pt1⟩ ⟨hk1, hwf1, hsh1, hpte1⟩
  have hsame : pt1.pte TRAPFRAME = pt.pte TRAPFRAME := by
    rw [show pt1.pte = _ from hpte1, update_of_ne htop.ne]
  refine ensures_bind ((uvmunmap_high_ensures hwf1 le_rfl (by omega)
    (by rw [show pt1.pte _ = _ from hsame]; exact hok.top)
    (by rw [show pt1.pte _ = _ from hsame]; exact hok.leaf _ hok.top)).mono ?_)
  rintro ⟨k2, pt2⟩ ⟨hk2, hwf2, hsh2, hpte2⟩
  obtain rfl : k1 = k := hk1
  obtain rfl : k2 = k1 := hk2
  have hpte : pt2.pte =
      update (update pt.pte TRAMPOLINE .zero) TRAPFRAME .zero := by
    rw [show pt2.pte = _ from hpte2, show pt1.pte = _ from hpte1]
  refine uvmfree_ensures hwf2 hok.size_le ?_ ?_ ?_
  · intro v
    rw [hpte]
    by_cases h1 : v = TRAPFRAME
    · simp [h1, Pte.zero, Flags.none, hle]
    by_cases h2 : v = TRAMPOLINE
    · subst h2
      simp [h1, Pte.zero, Flags.none]
      omega
    rw [update_of_ne h1, update_of_ne h2]
    by_cases hv : v < TRAPFRAME
    · exact hok.valid_iff v hv
    · constructor
      · intro hvalid
        rcases (hok.above v (by omega)).mp hvalid with h | h
        · exact absurd h h1
        · exact absurd h h2
      · omega
  · intro v
    rw [hpte]
    by_cases h1 : v = TRAPFRAME
    · simp [h1, Pte.zero, Flags.none]
    by_cases h2 : v = TRAMPOLINE
    · subst h2
      simp [h1, Pte.zero, Flags.none]
    rw [update_of_ne h1, update_of_ne h2]
    exact hok.leaf v
  · rw [show pt2.shares = pt1.shares from hsh2, show pt1.shares = pt.shares from hsh1]
    exact hE

/-! ## `proc_pagetable` -/

/-- A page table under construction, with the entries `f`. -/
structure Bare (R : Ram) (M : Multiset (Share Ppn)) (k : Kmem) (f : ℕ → Pte) (k' : Kmem)
    (pt' : PageTable) : Prop where
  wf : pt'.Wf
  exact : KOk R k' (pt'.shares + M)
  keeps : Keeps M k k'
  pte : pt'.pte = f

variable {k' : Kmem}

theorem Bare.uvmfree (h : Bare R M k (fun _ => .zero) k' pt) :
    (uvmfree R pt 0 k').Ensures (Expected R) fun k'' =>
      KOk R k'' M ∧ Keeps M k k'' ∧ k''.oom = k'.oom := by
  have hnone : ∀ v, (pt.pte v).flags.v = false := by
    intro v
    rw [h.pte]
    rfl
  refine (uvmfree_ensures h.wf (by simp [pgroundup, PGSIZE]) ?_ ?_ h.exact).mono ?_
  · intro v
    simp [hnone v, pgroundup, PGSIZE]
  · intro v hv
    simp [hnone v] at hv
  · rintro k'' ⟨hE, hkeeps, hoom⟩
    exact ⟨hE, h.keeps.trans hkeeps, hoom⟩

theorem Bare.mapPage {f : ℕ → Pte} (h : Bare R M k f k' pt) (hv : TRAPFRAME ≤ v)
    (hfree : f v = .zero) (pa : Ppn) (perm : Flags) :
    (mapPage v pa perm k' pt).Ensures (Expected R) fun r =>
      (r.2.1.oom = false → k'.oom = false ∧ r.1 = true) ∧
      (r.1 = true →
        Bare R M k (update f v ⟨pa, { perm with v := true }⟩) r.2.1 r.2.2) ∧
      (r.1 = false → Bare R M k f r.2.1 r.2.2) := by
  have hzero : (pt.pte v).flags.v = true → (pt.pte v).flags.cow = true := by
    rw [h.pte, hfree]
    exact fun h => h
  refine (mapPage_ensures h.wf hzero h.exact).mono ?_
  rintro ⟨ok, k1, pt2⟩ ⟨pt1, hpost, htrue, hfalse⟩
  have hkeeps := h.keeps.trans hpost.keeps.right
  cases ok with
  | false =>
    obtain ⟨rfl, hoom⟩ := hfalse rfl
    refine ⟨fun ho => ?_, by simp, fun _ => ⟨hpost.wf, hpost.exact, hkeeps, hpost.pte.trans h.pte⟩⟩
    rw [hoom] at ho
    exact Bool.noConfusion ho
  | true =>
    obtain ⟨hreach, rfl⟩ := htrue rfl
    refine ⟨fun ho => ⟨hpost.oom ho, rfl⟩,
      fun _ => ⟨setPte_wf hpost.wf hreach (by simp), ?_, hkeeps,
      ?_⟩, by simp⟩
    · rw [setPte_shares_high hv]
      exact hpost.exact
    · rw [← h.pte, ← hpost.pte]
      rfl

theorem uvmcreate_some (hE : KOk R k M) (hk : uvmcreate k = (some pt, k')) :
    Bare R M k (fun _ => .zero) k' pt ∧ k'.oom = k.oom := by
  unfold uvmcreate at hk
  rcases hka : kalloc k with ⟨_ | root, k1⟩
  · simp [hka] at hk
  rw [hka] at hk
  obtain ⟨rfl, rfl⟩ := hk
  obtain ⟨hx, -, -, hoom⟩ := kalloc_some hka hE
  refine ⟨⟨⟨by simp, by simp, by simp, by simp⟩, ?_, kalloc_keeps hka hE, rfl⟩, hoom⟩
  have hE' := hx (.sole root) rfl
  have hshares : PageTable.shares ⟨root, fun _ => none, fun _ => none, fun _ => .zero⟩ =
      {.sole root} := by
    rw [PageTable.shares_eq]
    simp [PageTable.tables, PageTable.entries, tableShare]
  rw [hshares, singleton_add]
  exact hE'

theorem uvmcreate_none (hE : KOk R k M) (hk : uvmcreate k = (none, k')) :
    KOk R k' M ∧ Keeps M k k' ∧ k'.oom = true := by
  unfold uvmcreate at hk
  rcases hka : kalloc k with ⟨_ | root, k1⟩
  · rw [hka] at hk
    obtain ⟨-, rfl⟩ := hk
    obtain ⟨hE', hdata, hoom⟩ := kalloc_none hka hE
    exact ⟨hE', fun pg _ => by rw [hdata], hoom⟩
  · simp [hka] at hk

def topEntries (R : Ram) (trapframe : Ppn) : ℕ → Pte :=
  update (update (fun _ => .zero) TRAMPOLINE
    ⟨R.trampoline, { Flags.none with r := true, x := true, v := true }⟩) TRAPFRAME
    ⟨trapframe, { Flags.none with r := true, w := true, v := true }⟩

theorem topEntries_low (R : Ram) (trapframe : Ppn) (hv : v < TRAPFRAME) :
    topEntries R trapframe v = .zero := by
  have htop := trapframe_lt_trampoline
  have h1 : v ≠ TRAPFRAME := by omega
  have h2 : v ≠ TRAMPOLINE := by omega
  simp [topEntries, h1, h2]

theorem Bare.ptOk {trapframe : Ppn} (h : Bare R M k (topEntries R trapframe) k' pt) :
    PtOk pt 0 := by
  have hne : TRAMPOLINE ≠ TRAPFRAME := trapframe_lt_trampoline.ne'
  have hlow : ∀ v, v < TRAPFRAME → pt.pte v = .zero := by
    intro v hv
    rw [h.pte]
    exact topEntries_low R trapframe hv
  refine ⟨h.wf, ?_, Nat.zero_le _, ?_, ?_, ?_, ?_, ?_⟩
  · intro v hv
    rw [hlow v hv]
    simp [Pte.zero, Flags.none]
  · intro v hv
    rw [hlow v hv]
    simp [Pte.zero, Flags.none]
  · intro v _
    rw [h.pte, topEntries]
    by_cases h1 : v = TRAPFRAME
    · simp [h1, Flags.none]
    · by_cases h2 : v = TRAMPOLINE
      · simp [h2, hne, Flags.none]
      · simp [h1, h2, Pte.zero, Flags.none]
  · intro v _
    rw [h.pte, topEntries]
    by_cases h1 : v = TRAPFRAME
    · simp [h1]
    · by_cases h2 : v = TRAMPOLINE
      · simp [h2, hne]
      · simp [h1, h2, Pte.zero, Flags.none]
  · intro v
    rw [h.pte, topEntries]
    by_cases h1 : v = TRAPFRAME
    · simp [h1]
    · by_cases h2 : v = TRAMPOLINE
      · simp [h2, hne]
      · simp [h1, h2, Pte.zero, Flags.none]
  · intro v w hv _ hvalid
    rw [hlow v hv] at hvalid
    exact Bool.noConfusion hvalid

theorem procPagetable_ensures {trapframe : Ppn} (hE : KOk R k M) :
    (procPagetable R trapframe k).Ensures (Expected R) fun r =>
      (r.2.oom = false → k.oom = false ∧ r.1.isSome = true) ∧
      (r.1 = none → KOk R r.2 M ∧ Keeps M k r.2) ∧
      (∀ pt, r.1 = some pt → Post R M k 0 .empty r.2 pt) := by
  have htop := trapframe_lt_trampoline
  unfold procPagetable
  rcases hc : uvmcreate k with ⟨_ | pt, k1⟩
  · obtain ⟨hE', hkeeps, hoom⟩ := uvmcreate_none hE hc
    refine ⟨fun ho => ?_, fun _ => ⟨hE', hkeeps⟩, by simp⟩
    rw [hoom] at ho
    exact Bool.noConfusion ho
  obtain ⟨hbare, hoom⟩ := uvmcreate_some hE hc
  refine ensures_bind ((hbare.mapPage htop.le rfl _ _).mono ?_)
  rintro ⟨ok1, k2, pt2⟩ ⟨hoom2, hdone2, hfailed2⟩
  cases ok1 with
  | false =>
    refine ensures_bind ((hfailed2 rfl).uvmfree.mono ?_)
    rintro k3 ⟨hE3, hkeeps3, hoom3⟩
    refine ⟨fun ho => ?_, fun _ => ⟨hE3, hkeeps3⟩, by simp⟩
    rw [hoom3] at ho
    exact Bool.noConfusion (hoom2 ho).2
  | true =>
    simp only [Bool.not_true, Bool.false_eq_true, if_false]
    refine ensures_bind (((hdone2 rfl).mapPage le_rfl (by simp [htop.ne]) _ _).mono ?_)
    rintro ⟨ok2, k3, pt3⟩ ⟨hoom3, hdone3, hfailed3⟩
    cases ok2 with
    | false =>
      have hbare3 := hfailed3 rfl
      have hpte3 : pt3.pte = _ := hbare3.pte
      refine ensures_bind ((uvmunmap_high_ensures hbare3.wf htop.le trampoline_lt_maxvpn
        (by simp [hpte3]) (by simp [hpte3])).mono ?_)
      rintro ⟨k4, pt4⟩ ⟨hk4, hwf4, hsh4, hpte4⟩
      obtain rfl : k4 = k3 := hk4
      have hbare4 : Bare R M k (fun _ => .zero) k4 pt4 := by
        refine ⟨hwf4, ?_, hbare3.keeps, ?_⟩
        · rw [show pt4.shares = pt3.shares from hsh4]
          exact hbare3.exact
        · rw [show pt4.pte = _ from hpte4, hpte3, update_idem]
          exact update_eq_self TRAMPOLINE _
      refine ensures_bind (hbare4.uvmfree.mono ?_)
      rintro k5 ⟨hE5, hkeeps5, hoom5⟩
      refine ⟨fun ho => ?_, fun _ => ⟨hE5, hkeeps5⟩, by simp⟩
      rw [hoom5] at ho
      exact Bool.noConfusion (hoom3 ho).2
    | true =>
      have hbare3 : Bare R M k (topEntries R trapframe) k3 pt3 := hdone3 rfl
      refine ⟨fun ho => ⟨?_, rfl⟩, by simp, ?_⟩
      · have h1 := (hoom2 (hoom3 ho).1).1
        rwa [hoom] at h1
      · rintro pt' hpt'
        obtain rfl := Option.some.inj hpt'
        refine ⟨hbare3.ptOk, hbare3.exact, hbare3.keeps, ?_⟩
        funext v
        simp only [PageTable.space, Space.empty]
        rw [if_neg]
        rintro ⟨hv, hvalid⟩
        rw [hbare3.pte, topEntries_low R trapframe hv] at hvalid
        exact Bool.noConfusion hvalid

end
end Xv6.Vm
