import Xv6.Vm.Eager

/-! # The memory after a failed `fork`

Memory can run out for the trapframe, for a page of the new page table, or while the pages of the
parent are shared. In each case the free pages, the counts and all that can be read are as before;
only entries of the parent may be marked copy-on-write.
-/

namespace Xv6.Vm
set_option autoImplicit false
open Function (update update_self update_of_ne update_eq_self update_idem update_comm)
open Kmem RefPool
open Outcome (bind_eq_ok)

/-! ## The page table of the parent -/

/-- Some entries have been marked copy-on-write and made read-only. -/
structure Marked (pt pt' : PageTable) : Prop where
  root : pt'.root = pt.root
  level1 : pt'.level1 = pt.level1
  level0 : pt'.level0 = pt.level0
  pte : ∀ v, pt'.pte v = pt.pte v ∨ pt'.pte v = { pt.pte v with flags := (pt.pte v).flags.share }

theorem Marked.refl (pt : PageTable) : Marked pt pt := ⟨rfl, rfl, rfl, fun _ => Or.inl rfl⟩

theorem Marked.setPte {pt pt' : PageTable} (h : Marked pt pt') (v : ℕ) :
    Marked pt (pt'.setPte v { pt'.pte v with flags := (pt'.pte v).flags.share }) := by
  refine ⟨h.root, h.level1, h.level0, fun w => ?_⟩
  by_cases hw : w = v
  · subst hw
    right
    rw [PageTable.setPte_pte_self]
    rcases h.pte w with h | h
    · rw [h]
    · rw [h]
      rfl
  · rw [PageTable.setPte_pte_of_ne _ _ hw]
    exact h.pte w

theorem uvmcopyLoop_marked {R : Ram} {k k' : Kmem} {pt old new old' new' : PageTable} {ok : Bool}
    (n i : ℕ) (hm : Marked pt old)
    (h : uvmcopyLoop R n i k old new = .ok (ok, k', old', new')) : Marked pt old' := by
  induction n generalizing i k old new with
  | zero =>
    cases h
    exact hm
  | succ n ih =>
    obtain ⟨⟨found, k1, old1⟩, hwalk, h⟩ := bind_eq_ok h
    rw [walk_find] at hwalk
    split at hwalk
    · cases hwalk
    cases hwalk
    dsimp only at h
    split at h
    · cases h
    split at h
    · cases h
    obtain ⟨⟨mapped, k2, new2⟩, -, h⟩ := bind_eq_ok h
    split at h
    · exact ih (i + 1) (hm.setPte i) h
    · obtain ⟨⟨k3, new3⟩, -, h⟩ := bind_eq_ok h
      cases h
      exact hm.setPte i

theorem Marked.uses {pt pt' : PageTable} (h : Marked pt pt') (pg : Ppn) :
    uses pt'.shares pg = uses pt.shares pg := by
  have htables : pt'.tables = pt.tables := by
    rw [PageTable.tables, PageTable.tables, h.root, h.level1, h.level0]
  have hmap : pt'.mappings pg = pt.mappings pg := by
    unfold PageTable.mappings
    congr 1
    apply Finset.filter_congr
    intro v _
    rcases h.pte v with h | h
    · rw [h]
    · rw [h]
      rfl
  rw [PageTable.shares_eq, PageTable.shares_eq, uses_add, uses_add, uses_entries, uses_entries,
    htables, hmap]

/-! ## The counts of pages that are not the allocator's -/

/-- Only counts of pages of the allocator have changed, given that no other page is free. -/
def Within (R : Ram) (k k' : Kmem) : Prop :=
  (∀ pg ∈ k.freelist, R.Allocatable pg) → (∀ pg ∈ k'.freelist, R.Allocatable pg) ∧
    ∀ pg, ¬ R.Allocatable pg → k'.refCount pg = k.refCount pg

section
variable {R : Ram} {k k' k'' : Kmem} {pt pt' : PageTable}

theorem Within.refl (R : Ram) (k : Kmem) : Within R k k := fun h => ⟨h, fun _ _ => rfl⟩

theorem Within.trans (h : Within R k k') (h' : Within R k' k'') : Within R k k'' := by
  intro hfree
  obtain ⟨hfree', href⟩ := h hfree
  obtain ⟨hfree'', href'⟩ := h' hfree'
  exact ⟨hfree'', fun pg hpg => (href' pg hpg).trans (href pg hpg)⟩

theorem refInc_within {pg : Ppn} (hpg : R.Allocatable pg) : Within R k (k.refInc pg) := by
  intro hfree
  refine ⟨hfree, fun p hp => update_of_ne ?_ _ _⟩
  rintro rfl
  exact hp hpg

theorem kalloc_within {r : Option Ppn} (h : kalloc k = (r, k')) : Within R k k' := by
  unfold kalloc at h
  split at h
  · cases h
    exact .refl R k
  · rename_i pg next hlist
    cases h
    intro hfree
    rw [hlist] at hfree
    exact refInc_within (hfree pg List.mem_cons_self)
      fun p hp => hfree p (List.mem_cons_of_mem _ hp)

theorem kfree_within {pg : Ppn} (h : kfree R pg k = .ok k') : Within R k k' := by
  unfold kfree at h
  split at h
  · cases h
  · rename_i hpg
    rw [not_not] at hpg
    have hne : ∀ p, ¬ R.Allocatable p → p ≠ pg := by
      rintro p hp rfl
      exact hp hpg
    intro hfree
    dsimp only at h
    split at h
    · cases h
      exact ⟨List.forall_mem_cons.mpr ⟨hpg, hfree⟩, fun p hp => update_of_ne (hne p hp) _ _⟩
    · cases h
      exact ⟨hfree, fun p hp => update_of_ne (hne p hp) _ _⟩

theorem walk_within {alloc found : Bool} {v : ℕ} (h : walk alloc v k pt = .ok (found, k', pt')) :
    Within R k k' := by
  have h1 : ∀ r, walk1 alloc v k pt = r → Within R k r.2.1 := by
    rintro r rfl
    unfold walk1
    split
    · exact .refl R k
    · split
      · split <;> exact kalloc_within ‹_›
      · exact .refl R k
  have h0 : ∀ k1 pt1, Within R k1 (walk0 alloc v k1 pt1).2.1 := by
    intro k1 pt1
    unfold walk0
    split
    · exact .refl R k1
    · split
      · split <;> exact kalloc_within ‹_›
      · exact .refl R k1
  unfold walk at h
  split at h
  · cases h
  · split at h
    · rename_i hw
      cases h
      exact h1 _ hw
    · rename_i k1 pt1 hw
      have h : walk0 alloc v k1 pt1 = (found, k', pt') := Outcome.ok.inj h
      have := h0 k1 pt1
      rw [h] at this
      exact (h1 _ hw).trans this

theorem mapPage_within {v : ℕ} {pa : Ppn} {perm : Flags} {ok : Bool}
    (h : mapPage v pa perm k pt = .ok (ok, k', pt')) : Within R k k' := by
  obtain ⟨⟨found, k1, pt1⟩, hwalk, h⟩ := bind_eq_ok h
  dsimp only at h
  split at h
  · cases h
    exact walk_within hwalk
  · split at h
    · cases h
    · cases h
      exact walk_within hwalk

theorem uvmunmap_within {doFree : Bool} (n v : ℕ)
    (h : uvmunmap R doFree n v k pt = .ok (k', pt')) : Within R k k' := by
  induction n generalizing v k pt with
  | zero =>
    cases h
    exact .refl R _
  | succ n ih =>
    obtain ⟨⟨found, k1, pt1⟩, hwalk, h⟩ := bind_eq_ok h
    dsimp only at h
    split at h
    · cases h
    split at h
    · cases h
    split at h
    · cases h
    apply (walk_within hwalk).trans
    cases doFree with
    | true =>
      obtain ⟨k2, hfree, h⟩ := bind_eq_ok h
      exact (kfree_within hfree).trans (ih (v + 1) h)
    | false => exact ih (v + 1) h

theorem foldlM_within {f : Kmem → ℕ → Outcome Failure Kmem} {l : List ℕ}
    (hf : ∀ k k' i, f k i = .ok k' → Within R k k') (h : l.foldlM f k = .ok k') :
    Within R k k' := by
  induction l generalizing k with
  | nil =>
    cases h
    exact .refl R _
  | cons i l ih =>
    rw [List.foldlM_cons] at h
    obtain ⟨k1, hi, h⟩ := bind_eq_ok h
    exact (hf _ _ _ hi).trans (ih h)

theorem freeLevel0_within {j : ℕ} (h : freeLevel0 R pt k j = .ok k') : Within R k k' := by
  unfold freeLevel0 at h
  split at h
  · cases h
    exact .refl R k
  · split at h
    · cases h
    · exact kfree_within h

theorem freeLevel1_within {i : ℕ} (h : freeLevel1 R pt k i = .ok k') : Within R k k' := by
  unfold freeLevel1 at h
  split at h
  · cases h
    exact .refl R k
  · obtain ⟨k1, hfold, h⟩ := bind_eq_ok h
    exact (foldlM_within (fun _ _ _ => freeLevel0_within) hfold).trans (kfree_within h)

theorem freewalk_within (h : freewalk R pt k = .ok k') : Within R k k' := by
  obtain ⟨k1, hfold, h⟩ := bind_eq_ok h
  exact (foldlM_within (fun _ _ _ => freeLevel1_within) hfold).trans (kfree_within h)

theorem uvmfree_within {sz : ℕ} (h : uvmfree R pt sz k = .ok k') : Within R k k' := by
  unfold uvmfree at h
  split at h
  · obtain ⟨⟨k1, pt1⟩, hunmap, h⟩ := bind_eq_ok h
    exact (uvmunmap_within _ _ hunmap).trans (freewalk_within h)
  · exact freewalk_within h

theorem procPagetable_within {trapframe : Ppn} {r : Option PageTable}
    (h : procPagetable R trapframe k = .ok (r, k')) : Within R k k' := by
  have hcreate : ∀ r k1, uvmcreate k = (r, k1) → Within R k k1 := by
    intro r k1 hr
    unfold uvmcreate at hr
    split at hr <;> cases hr <;> exact kalloc_within ‹_›
  unfold procPagetable at h
  split at h
  · rename_i k1 hc
    cases h
    exact hcreate _ _ hc
  · rename_i pt1 k1 hc
    apply (hcreate _ _ hc).trans
    obtain ⟨⟨ok, k2, pt2⟩, hmap, h⟩ := bind_eq_ok h
    apply (mapPage_within hmap).trans
    dsimp only at h
    split at h
    · obtain ⟨k3, hfree, h⟩ := bind_eq_ok h
      cases h
      exact uvmfree_within hfree
    · obtain ⟨⟨ok, k3, pt3⟩, hmap, h⟩ := bind_eq_ok h
      apply (mapPage_within hmap).trans
      split at h
      · obtain ⟨⟨k4, pt4⟩, hunmap, h⟩ := bind_eq_ok h
        obtain ⟨k5, hfree, h⟩ := bind_eq_ok h
        cases h
        exact (uvmunmap_within _ _ hunmap).trans (uvmfree_within hfree)
      · cases h
        exact .refl R _

theorem procFreepagetable_within {sz : ℕ} (h : procFreepagetable R pt sz k = .ok k') :
    Within R k k' := by
  obtain ⟨⟨k1, pt1⟩, h1, h⟩ := bind_eq_ok h
  obtain ⟨⟨k2, pt2⟩, h2, h⟩ := bind_eq_ok h
  exact ((uvmunmap_within _ _ h1).trans (uvmunmap_within _ _ h2)).trans (uvmfree_within h)

theorem uvmcopyLoop_within {old new old' new' : PageTable} {ok : Bool} (n i : ℕ)
    (hpages : ∀ v, v < i + n → (old.pte v).flags.v = true → R.Allocatable (old.pte v).ppn)
    (h : uvmcopyLoop R n i k old new = .ok (ok, k', old', new')) : Within R k k' := by
  induction n generalizing i k old new with
  | zero =>
    cases h
    exact .refl R _
  | succ n ih =>
    obtain ⟨⟨found, k1, old1⟩, hwalk, h⟩ := bind_eq_ok h
    rw [walk_find] at hwalk
    split at hwalk
    · cases hwalk
    cases hwalk
    dsimp only at h
    split at h
    · cases h
    split at h
    · cases h
    rename_i hvalid
    obtain ⟨⟨mapped, k2, new2⟩, hmap, h⟩ := bind_eq_ok h
    apply (mapPage_within hmap).trans
    split at h
    · apply (refInc_within (hpages i (by omega) (by simpa using hvalid))).trans
      apply ih (i + 1) _ h
      intro v hv
      by_cases hvi : v = i
      · subst hvi
        rw [PageTable.setPte_pte_self]
        exact hpages v (by omega)
      · rw [PageTable.setPte_pte_of_ne _ _ hvi]
        exact hpages v (by omega)
    · obtain ⟨⟨k3, new3⟩, hunmap, h⟩ := bind_eq_ok h
      cases h
      exact uvmunmap_within _ _ hunmap

end

/-! ## What can be read -/

theorem Space.load_shareTo (m : Space) (n va : ℕ) : (m.shareTo n).load va = m.load va := by
  simp only [Space.load, Space.shareTo, Space.share]
  split
  · cases m (va / PGSIZE) <;> rfl
  · rfl

section
variable {I : Type} [DecidableEq I]

theorem load_spaceStep_fork (V : I → SlotView) (ok : Bool) (n : ℕ) {p q r : I} (hr : r ≠ q)
    (va : ℕ) : (spaceStep (fun m => m.shareTo n) ok V (.fork p q) r).space.load va =
      (V r).space.load va := by
  cases hp : V p with
  | unused => simp only [spaceStep, hp]
  | fresh => simp only [spaceStep, hp]
  | live x =>
    simp only [spaceStep, hp, onProc]
    rw [update_of_ne hr]
    by_cases hrp : r = p
    · rw [hrp, update_self, hp]
      exact Space.load_shareTo _ _ _
    · rw [update_of_ne hrp]

end

section
variable {I : Type} [Fintype I] [DecidableEq I] {R : Ram} {s s₁ s' : State I} {p q : I}

/-! ## Counts and free pages -/

/-- The free pages, the counts and all that can be read are the same. -/
structure NoTrace (s s' : State I) : Prop where
  free : s'.kmem.freelist.Perm s.kmem.freelist
  refCount : s'.kmem.refCount = s.kmem.refCount
  load : ∀ q va, s'.load q va = s.load q va

omit [DecidableEq I] in
theorem NoTrace.of_uses (h : Inv R s) (h' : Inv R s') (hwithin : Within R s.kmem s'.kmem)
    (huses : ∀ pg, uses s'.shares pg = uses s.shares pg)
    (hload : ∀ q va, (s'.view q).space.load va = (s.view q).space.load va) : NoTrace s s' := by
  refine ⟨?_, ?_, ?_⟩
  · rw [List.perm_iff_count]
    intro pg
    by_cases hpg : R.Allocatable pg
    · rw [h'.exact.free_count pg hpg, h.exact.free_count pg hpg, huses]
    · rw [List.count_eq_zero.mpr fun hmem => hpg (h'.exact.free_valid pg hmem),
        List.count_eq_zero.mpr fun hmem => hpg (h.exact.free_valid pg hmem)]
  · funext pg
    by_cases hpg : R.Allocatable pg
    · rw [h'.exact.ref_eq pg hpg, h.exact.ref_eq pg hpg, huses]
    · exact (hwithin h.exact.free_valid).2 pg hpg
  · intro q va
    rw [h.load_eq, h'.load_eq, hload]

omit [Fintype I] in
theorem allocproc_kernel (h : allocproc R q s = .ok s') :
    s'.kernel = s.kernel ∧ Within R s.kmem s'.kmem := by
  unfold allocproc at h
  split at h
  · cases h
    exact ⟨rfl, kalloc_within ‹_›⟩
  · rename_i trapframe k hk
    obtain ⟨⟨pt, k1⟩, hpt, h⟩ := bind_eq_ok h
    have hwithin : Within R s.kmem k1 := (kalloc_within hk).trans (procPagetable_within hpt)
    dsimp only at h
    split at h
    · obtain ⟨k', hfree, h⟩ := bind_eq_ok h
      cases h
      exact ⟨rfl, hwithin.trans (kfree_within hfree)⟩
    · cases h
      exact ⟨rfl, hwithin⟩

theorem allocproc_view (h : Inv R s) (hq : s.slot q = .unused) (halloc : allocproc R q s = .ok s') :
    Inv R s' ∧ ∃ ok : Bool, s'.view = if ok then update s.view q .fresh else s.view := by
  have hstep : step R s (.allocproc q) = .ok s' := by
    simp only [step, hq, halloc]
  obtain ⟨hinv, n, ok, hview, -⟩ := (step_ensures h _).of_ok hstep
  exact ⟨hinv, ok, hview⟩

theorem allocproc_undone (h : Inv R s) (hq : s.slot q = .unused)
    (halloc : allocproc R q s = .ok s') (hslot : s'.slot = s.slot) : NoTrace s s' := by
  obtain ⟨hinv, ok, hview⟩ := allocproc_view h hq halloc
  obtain ⟨hkernel, hwithin⟩ := allocproc_kernel halloc
  have hview : s'.view = s.view := by
    cases ok with
    | false => exact hview
    | true =>
      have := congrFun hview q
      simp [State.view, Slot.view, hslot, hq] at this
  refine .of_uses h hinv hwithin (fun pg => ?_) fun r va => by rw [hview]
  rw [State.shares, State.shares, hslot, hkernel]

theorem Inv.allocatable (h : Inv R s) {x : Proc} (hx : s.slot p = .live x) {v : ℕ}
    (hv : v < pgroundup x.sz) (hvalid : (x.pt.pte v).flags.v = true) :
    R.Allocatable (x.pt.pte v).ppn := by
  have hE := h.exact_at p
  rw [hx, Slot.shares, Proc.shares_beside] at hE
  exact allocatable_of_valid hE (hv.trans_le (h.live_ok hx).size_le) hvalid

omit [Fintype I] in
theorem forkCopy_failed {x y : Proc} (hcopy : forkCopy R p q x y s = .ok s')
    (hpages : ∀ v, v < pgroundup x.sz → (x.pt.pte v).flags.v = true →
      R.Allocatable (x.pt.pte v).ppn)
    (hq' : s'.slot q = .unused) : Within R s.kmem s'.kmem ∧ s'.kernel = s.kernel ∧
      ∃ pt, Marked x.pt pt ∧
        s'.slot = update (update s.slot p (.live { x with pt := pt })) q .unused := by
  obtain ⟨⟨ok, k, old, new⟩, hloop, hrest⟩ := bind_eq_ok hcopy
  have hmarked : Marked x.pt old := uvmcopyLoop_marked _ _ (Marked.refl _) hloop
  have hwithin : Within R s.kmem k :=
    uvmcopyLoop_within _ 0 (fun v hv => hpages v (by omega)) hloop
  cases ok with
  | true =>
    cases hrest
    simp [State.setSlot] at hq'
  | false =>
    obtain ⟨k', hfree, hrest⟩ := bind_eq_ok hrest
    cases hrest
    obtain ⟨k1, hframe, hfree⟩ := bind_eq_ok hfree
    have hfreed := (kfree_within hframe).trans (procFreepagetable_within hfree)
    exact ⟨hwithin.trans hfreed, rfl, old, hmarked, rfl⟩

theorem fork_undone (h : Inv R s) {x y : Proc} (hq : s.slot q = .unused)
    (hx : s.running p = some x) (halloc : allocproc R q s = .ok s₁)
    (hslot : s₁.slot = update s.slot q (.fresh y))
    (hcopy : forkCopy R p q x y s₁ = .ok s') (hq' : s'.slot q = .unused) :
    NoTrace s s' ∧ ∃ pt, s'.slot = update s.slot p (.live { x with pt := pt }) ∧
      Marked x.pt pt := by
  have hxp := running_eq_some.mp hx
  have hpq : p ≠ q := by
    rintro rfl
    rw [hq] at hxp
    cases hxp.1
  -- The slots and the kernel pages after `forkCopy`.
  obtain ⟨hkernel1, hwithin1⟩ := allocproc_kernel halloc
  obtain ⟨hwithin, hkernel, pt, hmarked, hslot'⟩ :=
    forkCopy_failed hcopy (fun v => h.allocatable hxp.1) hq'
  have hslots : s'.slot = update s.slot p (.live { x with pt := pt }) := by
    rw [hslot', hslot, update_comm hpq, update_idem, ← hq,
      update_eq_self]
  -- The views.
  obtain ⟨hinv1, ok1, hview1⟩ := allocproc_view h hq halloc
  have hstep : step R s₁ (.fork p q) = .ok s' := by
    have hx1 : s₁.running p = some x := by
      rw [running_eq_some, hslot, update_of_ne hpq]
      exact hxp
    have hy1 : s₁.slot q = .fresh y := by rw [hslot, update_self]
    simp only [step, withProc, hx1, hy1, hcopy]
  obtain ⟨hinv', n, ok', hview', -⟩ := (step_ensures hinv1 _).of_ok hstep
  refine ⟨.of_uses h hinv' (hwithin1.trans hwithin) (fun pg => ?_) fun r va => ?_, pt, hslots,
    hmarked⟩
  · have hrest : s'.rest {p} = s.rest {p} := by
      rw [State.rest, State.rest, hkernel, hkernel1, hslots]
      congr 1
      apply Finset.sum_congr rfl
      intro r hr
      rw [update_of_ne (by simpa using hr)]
    rw [shares_eq_rest s' {p}, shares_eq_rest s {p}, hrest, Finset.sum_singleton,
      Finset.sum_singleton, hslots, update_self, hxp.1]
    simp only [uses_add, Slot.shares, Proc.shares, uses_cons, hmarked.uses]
  · by_cases hrq : r = q
    · rw [hrq, State.view, State.view, hq, hq']
      rfl
    · have hr : s₁.view r = s.view r := by
        rw [hview1]
        cases ok1 with
        | true => exact update_of_ne hrq _ _
        | false => rfl
      rw [← hr, hview']
      exact load_spaceStep_fork _ _ _ hrq _

end
end Xv6.Vm
