import Xv6.Vm.Boot

/-! # Reference counts are exact

In every reachable state the count of a page is the number of user mappings of the page, plus one
if the kernel owns it, and the free list holds exactly the pages with count 0.
-/

namespace Xv6.Vm
set_option autoImplicit false
open Kmem RefPool
open Multiset (coe_nil mem_map mem_coe sum_coe mem_add mem_sum)

/-! ## Mappings and owners -/

/-- The number of valid leaf entries of user memory that map `pg`. -/
def PageTable.mappings (pt : PageTable) (pg : Ppn) : ℕ :=
  ((Finset.range TRAPFRAME).filter fun v =>
    (pt.pte v).flags.v = true ∧ (pt.pte v).ppn = pg).card

def PageTable.IsTable (pt : PageTable) (pg : Ppn) : Prop :=
  pg = pt.root ∨ (∃ i, pt.level1 i = some pg) ∨ ∃ j, pt.level0 j = some pg

/-- The page tables of a slot, that of an unfinished `exec` included. -/
def Slot.pageTables : Slot → List PageTable
  | .unused => []
  | .fresh p | .live p => p.pt :: p.image.toList.map Image.pt

def Slot.trapframes : Slot → List Ppn
  | .unused => []
  | .fresh p | .live p => [p.trapframe]

section
variable {I : Type}

def State.mappings [Fintype I] (s : State I) (pg : Ppn) : ℕ :=
  ∑ i, ((s.slot i).pageTables.map fun pt => pt.mappings pg).sum

/-- `pg` is a page-table page, a trapframe, or a page that the kernel has allocated for itself. -/
def State.KernelOwns (s : State I) (pg : Ppn) : Prop :=
  pg ∈ s.kernel ∨ ∃ i, pg ∈ (s.slot i).trapframes ∨ ∃ pt ∈ (s.slot i).pageTables, pt.IsTable pg

end

/-! ## The shares of the kernel and of the users -/

theorem uses_sum {α : Type} (S : Finset α) (f : α → Multiset (Share Ppn)) (pg : Ppn) :
    uses (∑ a ∈ S, f a) pg = ∑ a ∈ S, uses (f a) pg := by
  classical
  induction S using Finset.induction_on with
  | empty => simp
  | insert a S ha ih => rw [Finset.sum_insert ha, Finset.sum_insert ha, uses_add, ih]

theorem uses_list_sum {α : Type} (l : List α) (f : α → Multiset (Share Ppn)) (pg : Ppn) :
    uses (l.map f).sum pg = (l.map fun a => uses (f a) pg).sum := by
  induction l with
  | nil => simp
  | cons a l ih => simp [ih]

theorem uses_entries (pt : PageTable) (pg : Ppn) : uses pt.entries pg = pt.mappings pg := by
  rw [PageTable.entries, uses_sum, PageTable.mappings, Finset.card_filter]
  refine Finset.sum_congr rfl fun v _ => ?_
  by_cases hv : (pt.pte v).flags.v = true
  · rw [Pte.share, if_pos hv]
    cases (pt.pte v).flags.cow with
    | false | true =>
      simp [← Multiset.cons_zero, uses_cons, Share.page, hv]
      rfl
  · simp [Pte.share, hv]

def Slot.userShares (x : Slot) : Multiset (Share Ppn) := (x.pageTables.map PageTable.entries).sum

def Slot.ownShares (x : Slot) : Multiset (Share Ppn) :=
  kernelShares x.trapframes + (x.pageTables.map PageTable.tables).sum

theorem imageShares_eq (image : Option Image) :
    imageShares image = ((image.toList.map Image.pt).map PageTable.shares).sum := by
  cases image with
  | none => rfl
  | some im => exact (add_zero im.pt.shares).symm

theorem Proc.shares_split (p : Proc) : p.shares =
    kernelShares [p.trapframe] +
      ((p.pt :: p.image.toList.map Image.pt).map PageTable.tables).sum +
      ((p.pt :: p.image.toList.map Image.pt).map PageTable.entries).sum := by
  have hsum : p.pt.shares + imageShares p.image =
      ((p.pt :: p.image.toList.map Image.pt).map PageTable.shares).sum := by
    rw [imageShares_eq, List.map_cons, List.sum_cons]
  have hfun : PageTable.shares = fun pt => pt.tables + pt.entries := funext PageTable.shares_eq
  rw [add_assoc, ← List.sum_map_add, ← hfun, ← hsum]
  exact (Multiset.singleton_add _ _).symm

theorem Slot.shares_split (x : Slot) : x.shares = x.ownShares + x.userShares := by
  cases x with
  | unused =>
    simp only [Slot.shares, Slot.ownShares, Slot.userShares, Slot.pageTables, Slot.trapframes,
      kernelShares, coe_nil, Multiset.map_zero, List.map_nil, List.sum_nil, add_zero]
  | fresh p => exact p.shares_split
  | live p => exact p.shares_split

variable {x : Share Ppn}

theorem mem_kernelShares {l : List Ppn} : x ∈ kernelShares l ↔ ∃ pg ∈ l, x = .sole pg := by
  simp only [kernelShares, mem_map, mem_coe, eq_comm]

theorem mem_list_sum {l : List (Multiset (Share Ppn))} : x ∈ l.sum ↔ ∃ m ∈ l, x ∈ m := by
  rw [← sum_coe]
  exact Multiset.mem_join

theorem mem_tableShare {t : Option Ppn} : x ∈ tableShare t ↔ ∃ pg, t = some pg ∧ x = .sole pg := by
  cases t with
  | none => simp [tableShare]
  | some pg => simp [tableShare]

theorem mem_tables {pt : PageTable} (hwf : pt.Wf) :
    x ∈ pt.tables ↔ ∃ pg, pt.IsTable pg ∧ x = .sole pg := by
  simp only [PageTable.tables, Multiset.mem_cons, mem_add, mem_sum,
    Finset.mem_range, mem_tableShare, PageTable.IsTable]
  constructor
  · rintro (rfl | ⟨i, -, pg, hi, rfl⟩ | ⟨j, -, pg, hj, rfl⟩)
    · exact ⟨_, .inl rfl, rfl⟩
    · exact ⟨pg, .inr (.inl ⟨i, hi⟩), rfl⟩
    · exact ⟨pg, .inr (.inr ⟨j, hj⟩), rfl⟩
  · rintro ⟨pg, rfl | ⟨i, hi⟩ | ⟨j, hj⟩, rfl⟩
    · exact .inl rfl
    · exact .inr (.inl ⟨i, hwf.level1_lt i (by simp [hi]), pg, hi, rfl⟩)
    · exact .inr (.inr ⟨j, hwf.level0_lt (by simp [hj]), pg, hj, rfl⟩)

section
variable {I : Type} [Fintype I] {R : Ram} {s : State I}

theorem Inv.pageTable_wf (h : Inv R s) {i : I} {pt : PageTable} (hpt : pt ∈ (s.slot i).pageTables) :
    pt.Wf := by
  have hok := h.slots i
  cases hx : s.slot i with
  | unused => simp [hx, Slot.pageTables] at hpt
  | fresh p =>
    rw [hx] at hok hpt
    obtain ⟨hok, -, him⟩ := hok
    simp only [Slot.pageTables, him, Option.toList_none, List.map_nil, List.mem_singleton] at hpt
    exact hpt ▸ hok.wf
  | live p =>
    rw [hx] at hok hpt
    rcases List.mem_cons.mp hpt with rfl | hpt
    · exact hok.1.wf
    · obtain ⟨im, him, rfl⟩ := List.mem_map.mp hpt
      exact (hok.2 im (Option.mem_toList.mp him)).1.wf

def State.ownShares (s : State I) : Multiset (Share Ppn) :=
  ∑ i, (s.slot i).ownShares + kernelShares s.kernel

theorem State.shares_split (s : State I) :
    s.shares = s.ownShares + ∑ i, (s.slot i).userShares := by
  rw [State.shares, State.ownShares, Finset.sum_congr rfl fun i _ => (s.slot i).shares_split,
    Finset.sum_add_distrib]
  abel

theorem uses_userShares (s : State I) (pg : Ppn) :
    uses (∑ i, (s.slot i).userShares) pg = s.mappings pg := by
  rw [uses_sum, State.mappings]
  refine Finset.sum_congr rfl fun i _ => ?_
  rw [Slot.userShares, uses_list_sum]
  simp only [uses_entries]

theorem Inv.mem_ownShares (h : Inv R s) {x : Share Ppn} :
    x ∈ s.ownShares ↔ ∃ pg, s.KernelOwns pg ∧ x = .sole pg := by
  have hslot : ∀ i, x ∈ (s.slot i).ownShares ↔ ∃ pg, (pg ∈ (s.slot i).trapframes ∨
      ∃ pt ∈ (s.slot i).pageTables, pt.IsTable pg) ∧ x = .sole pg := by
    intro i
    rw [Slot.ownShares, mem_add, mem_kernelShares]
    constructor
    · rintro (⟨pg, hpg, rfl⟩ | hx)
      · exact ⟨pg, .inl hpg, rfl⟩
      · obtain ⟨y, hy, hxy⟩ := mem_list_sum.mp hx
        obtain ⟨pt, hpt, rfl⟩ := List.mem_map.mp hy
        obtain ⟨pg, htab, rfl⟩ := (mem_tables (h.pageTable_wf hpt)).mp hxy
        exact ⟨pg, .inr ⟨pt, hpt, htab⟩, rfl⟩
    · rintro ⟨pg, hpg | ⟨pt, hpt, htab⟩, rfl⟩
      · exact .inl ⟨pg, hpg, rfl⟩
      · exact .inr (mem_list_sum.mpr ⟨_, List.mem_map_of_mem hpt,
          (mem_tables (h.pageTable_wf hpt)).mpr ⟨pg, htab, rfl⟩⟩)
  simp only [State.ownShares, mem_add, mem_sum, hslot, Finset.mem_univ, true_and,
    mem_kernelShares, State.KernelOwns]
  constructor
  · rintro (⟨i, pg, hpg, rfl⟩ | ⟨pg, hpg, rfl⟩)
    · exact ⟨pg, .inr ⟨i, hpg⟩, rfl⟩
    · exact ⟨pg, .inl hpg, rfl⟩
  · rintro ⟨pg, hpg | ⟨i, hpg⟩, rfl⟩
    · exact .inr ⟨pg, hpg, rfl⟩
    · exact .inl ⟨i, pg, hpg, rfl⟩

open Classical in
theorem Inv.uses_ownShares (h : Inv R s) (pg : Ppn) :
    uses s.ownShares pg = if s.KernelOwns pg then 1 else 0 := by
  split
  · next hown =>
    have hmem : .sole pg ∈ s.ownShares := h.mem_ownShares.mpr ⟨pg, hown, rfl⟩
    have hpos := uses_pos hmem
    have htotal := h.exact.sole_uses pg (by
      rw [State.shares_split]
      exact mem_add.mpr (.inl hmem))
    rw [State.shares_split, uses_add] at htotal
    simp only [Share.page] at hpos
    omega
  · next hown =>
    by_contra hne
    obtain ⟨x, hx, hpage⟩ := mem_map.mp (Multiset.count_ne_zero.mp hne)
    obtain ⟨q, hq, rfl⟩ := h.mem_ownShares.mp hx
    obtain rfl : q = pg := hpage
    exact hown hq

end

/-! ## The result -/

section
variable {I : Type} [Fintype I] [DecidableEq I] {R : Ram} {s : State I}

open Classical in
/-- In every reachable state, the count of an allocatable page is the number of its user mappings,
plus one if the kernel owns it, and the page is on the free list once if its count is 0 and not at
all otherwise. -/
theorem refCount_exact (hs : (sys R I).Reachable s) (pg : Ppn) (hpg : R.Allocatable pg) :
    s.kmem.refCount pg = (s.mappings pg + if s.KernelOwns pg then 1 else 0 : ℕ) ∧
      s.kmem.freelist.count pg = if s.kmem.refCount pg = 0 then 1 else 0 := by
  have h := reachable_inv hs
  have huses : uses s.shares pg = s.mappings pg + if s.KernelOwns pg then 1 else 0 := by
    rw [State.shares_split, uses_add, uses_userShares, h.uses_ownShares, add_comm]
  have href := h.exact.ref_eq pg hpg
  have hfree := h.exact.free_count pg hpg
  refine ⟨href.trans (by rw [huses]), ?_⟩
  rw [hfree, href]
  simp only [Int.natCast_eq_zero]

end

open Classical in
theorem refCount_exact_fork : ∃ s : State (Fin 2), (sys smallRam (Fin 2)).Reachable s ∧
    smallRam.Allocatable 34 ∧ s.kmem.refCount 34 = 2 ∧
    (s.mappings 34 + if s.KernelOwns 34 then 1 else 0) = 2 ∧ s.kmem.freelist.count 34 = 0 := by
  have hrun : (runFrom smallRam (0 : Fin 2) [] [.allocproc 1, .fork 0 1]).map
      (fun s => decide (s.kmem.refCount 34 = 2)) = some true := by decide +kernel
  obtain ⟨s, hs, hcount⟩ := Option.map_eq_some_iff.mp hrun
  have hcount : s.kmem.refCount 34 = 2 := of_decide_eq_true hcount
  obtain ⟨s0, hboot, hruns⟩ := run_of_runFrom hs
  have hreach := (TransSys.Reachable.init hboot).run hruns
  obtain ⟨href, hfree⟩ := refCount_exact hreach 34 (by decide)
  refine ⟨s, hreach, by decide, hcount, ?_, ?_⟩
  · rw [hcount] at href
    exact_mod_cast href.symm
  · rw [hfree, hcount, if_neg (by decide)]

end Xv6.Vm
