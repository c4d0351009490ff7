import Xv6.Vm.Flat

/-! # Faults on user stores

What the copy that replaces a marked page does to the counts and to the free list, and which
faulting addresses the store-fault branch of `usertrap` can handle.
-/

namespace Xv6.Vm
set_option autoImplicit false
open Kmem RefPool

def cowEntry (pg : Ppn) : Pte := ⟨pg, { cowPerm with v := true }⟩

/-- The page of entry `v` has been replaced by `pg`, which nobody else uses. -/
structure Replaced (v : ℕ) (k : Kmem) (pt : PageTable) (pg : Ppn) (k' : Kmem) (pt' : PageTable) :
    Prop where
  free : pg ∈ k.freelist
  pt_eq : pt' = pt.setPte v (cowEntry pg)
  data : k'.data pg = k.data (pt.pte v).ppn
  refCount : k'.refCount = Function.update (Function.update k.refCount pg 1) (pt.pte v).ppn
    (k.refCount (pt.pte v).ppn - 1)
  length : k'.freelist.length + 1 =
    k.freelist.length + if k.refCount (pt.pte v).ppn = 1 then 1 else 0

section
variable {R : Ram} {M : Multiset (Share Ppn)} {k : Kmem} {pt : PageTable} {v n : ℕ}

theorem kfree_eq {pg : Ppn} (hpg : R.Allocatable pg) : ∃ k', kfree R pg k = .ok k' ∧
    k'.refCount = Function.update k.refCount pg (k.refCount pg - 1) ∧
    (∀ q, q ≠ pg → k'.data q = k.data q) ∧
    k'.freelist = if k.refCount pg - 1 = 0 then pg :: k.freelist else k.freelist := by
  simp only [kfree, hpg, not_true_eq_false, if_false, Function.update_self]
  split
  · exact ⟨_, rfl, rfl, fun q hq => by simp [memset, hq], rfl⟩
  · exact ⟨_, rfl, rfl, fun _ _ => rfl, rfl⟩

theorem cowCopy_empty (hfree : k.freelist = []) (pa : Ppn) :
    cowCopy R v pa k pt = .fail .fault := by
  simp [cowCopy, kalloc, hfree]

theorem cowCopy_replaces (hok : PtOk pt n) (hcow : (pt.pte v).flags.cow = true)
    (hE : KOk R k (pt.shares + M)) (hfree : k.freelist ≠ []) :
    ∃ pg k' pt', cowCopy R v (pt.pte v).ppn k pt = .ok (true, k', pt') ∧
      Replaced v k pt pg k' pt' := by
  obtain ⟨hlt, hvalid, -⟩ := hok.lt_of_cow hcow
  obtain ⟨pg, next, hcons⟩ := List.exists_cons_of_ne_nil hfree
  have hmem : pg ∈ k.freelist := by simp [hcons]
  have hzero := (hE.uses_of_mem_free hmem).1
  have href : k.refCount pg = 0 := by
    rw [hE.ref_eq pg (hE.free_valid pg hmem), hzero]
    rfl
  have hne : (pt.pte v).ppn ≠ pg := ppn_ne_of_unused hzero v hlt hvalid
  have halloc : R.Allocatable (pt.pte v).ppn := allocatable_of_valid hE hlt hvalid
  have hmap : ∀ k' : Kmem, mappages 1 v pg cowPerm k' pt =
      .ok (true, k', pt.setPte v (cowEntry pg)) := by
    intro k'
    rw [mappages, mapPage_found (hok.reaches hvalid) (by simp only [TRAPFRAME] at hlt; omega),
      if_neg (by simp [hcow]), cowEntry]
  have hk : kalloc k = (some pg, (({ k with freelist := next } : Kmem).memset pg 5).refInc pg) := by
    simp [kalloc, hcons]
  set k1 := ((({ k with freelist := next } : Kmem).memset pg 5).refInc pg).copyPage pg
    (pt.pte v).ppn with hk1
  have hcount : k1.refCount (pt.pte v).ppn = k.refCount (pt.pte v).ppn := by
    simp [hk1, copyPage, refInc, memset, hne]
  have hcopy : cowCopy R v (pt.pte v).ppn k pt = (do
      let k' ← kfree R (pt.pte v).ppn k1
      pure (true, k', pt.setPte v (cowEntry pg))) := by
    rw [cowCopy, hk]
    simp only [← hk1, hmap]
    rfl
  obtain ⟨k', hfreed, hrefs, hdata, hlist⟩ := kfree_eq halloc
  rw [hcopy, hfreed]
  refine ⟨pg, k', _, rfl, hmem, rfl, ?_, ?_, ?_⟩
  · rw [hdata pg (Ne.symm hne)]
    simp [hk1, copyPage, refInc, memset, hne]
  · rw [hrefs, hcount]
    simp [hk1, copyPage, refInc, memset, href]
  · have hlen : k1.freelist.length + 1 = k.freelist.length := by
      simp [hk1, copyPage, refInc, memset, hcons]
    rw [hlist, hcount]
    by_cases hone : k.refCount (pt.pte v).ppn = 1
    · simp [hone, hlen]
    · rw [if_neg (by omega), if_neg hone, hlen]
      rfl

/-! ## The store-fault branch of `usertrap` -/

/-- The branch ends: it has replaced a copy-on-write page that the user may access by a private
copy, or the process is marked killed and nothing has changed. -/
def StoreHandled (R : Ram) (va : ℕ) (k : Kmem) (pt : PageTable) : Prop :=
  ∃ ok k' pt', storeFault R (va / PGSIZE) k pt = .ok (ok, k', pt') ∧
    (ok = true → pt.User (va / PGSIZE) ∧ (pt.pte (va / PGSIZE)).flags.cow = true ∧
      ∃ pg, Replaced (va / PGSIZE) k pt pg k' pt') ∧
    (ok = false → pt' = pt ∧ k'.refCount = k.refCount)

theorem storeFault_eq (hlt : v < MAXVPN) (hr : pt.reaches v = true) : storeFault R v k pt =
    if (pt.pte v).flags.cow then cowCopy R v (pt.pte v).ppn k pt else .ok (false, k, pt) := by
  rw [storeFault, walk_find, if_neg (by omega)]
  show (if !pt.reaches v then _ else if !(pt.pte v).flags.cow then _ else _) = _
  rw [hr]
  cases (pt.pte v).flags.cow <;> rfl

theorem storeFault_not_reached (h : ¬ (v < MAXVPN ∧ pt.reaches v = true))
    (r : Bool × Kmem × PageTable) : storeFault R v k pt ≠ .ok r := by
  rw [storeFault, walk_find]
  split
  · intro heq
    cases heq
  · next hlt =>
    have hr : pt.reaches v = false := by
      by_contra hr
      exact h ⟨by omega, by simpa using hr⟩
    show (if !pt.reaches v then _ else _) ≠ _
    rw [hr]
    intro heq
    cases heq

end

section
variable {I : Type} [Fintype I] [DecidableEq I] {R : Ram} {s : State I}

/-- The store-fault branch handles a fault at `va` exactly if `va` is below `MAXVA`, its leaf table
exists, and a page that is marked copy-on-write has `PTE_U` and there is a free page for the
copy. -/
theorem storeHandled_iff (hs : (sys R I).Reachable s) {i : I} {p : Proc}
    (hp : s.slot i = .live p) (va : ℕ) : StoreHandled R va s.kmem p.pt ↔
      va / PGSIZE < MAXVPN ∧ p.pt.reaches (va / PGSIZE) = true ∧
        ((p.pt.pte (va / PGSIZE)).flags.cow = true →
          (p.pt.pte (va / PGSIZE)).flags.u = true ∧ s.kmem.freelist ≠ []) := by
  have hinv := reachable_inv hs
  have hok := hinv.live_ok hp
  have hE := hinv.exact_live hp
  set v := va / PGSIZE with hv
  constructor
  · rintro ⟨ok, k', pt', heq, hdone, -⟩
    have hreach : v < MAXVPN ∧ p.pt.reaches v = true := by
      by_contra h
      exact storeFault_not_reached h _ heq
    refine ⟨hreach.1, hreach.2, fun hcow => ?_⟩
    rw [storeFault_eq hreach.1 hreach.2, if_pos hcow] at heq
    have hfree : s.kmem.freelist ≠ [] := by
      intro hfree
      rw [cowCopy_empty hfree] at heq
      cases heq
    obtain ⟨pg, k1, pt1, hcopy, -⟩ := cowCopy_replaces hok hcow hE hfree
    rw [hcopy] at heq
    cases heq
    exact ⟨(hdone rfl).1.2.2.2.1, hfree⟩
  · rintro ⟨hlt, hr, hcond⟩
    rw [StoreHandled, ← hv, storeFault_eq hlt hr]
    cases hcow : (p.pt.pte v).flags.cow with
    | false => exact ⟨false, _, _, rfl, by simp, fun _ => ⟨rfl, rfl⟩⟩
    | true =>
      obtain ⟨hu, hfree⟩ := hcond hcow
      obtain ⟨pg, k1, pt1, hcopy, hrep⟩ := cowCopy_replaces hok hcow hE hfree
      obtain ⟨hlt', hvalid, -⟩ := hok.lt_of_cow hcow
      have hppn := (allocatable_of_valid hE hlt' hvalid).ne_zero
      exact ⟨true, k1, pt1, hcopy, fun _ => ⟨⟨hlt, hr, hvalid, hu, hppn⟩, rfl, pg, hrep⟩, by simp⟩

end

theorem forked_child : ∃ (s : State (Fin 2)) (p : Proc), (sys smallRam (Fin 2)).Reachable s ∧
    s.slot 1 = .live p ∧ p.pt.User 0 ∧ (p.pt.pte 0).flags.cow = true ∧ s.kmem.freelist ≠ [] := by
  have hrun : (runFrom smallRam (0 : Fin 2) [] [.allocproc 1, .fork 0 1]).map
      (fun s => s.check 1 fun p k =>
        decide (p.pt.User 0 ∧ (p.pt.pte 0).flags.cow = true ∧ k.freelist ≠ [])) =
      some true := by decide +kernel
  obtain ⟨s, p, hreach, hp, htest⟩ := live_of_runFrom hrun
  exact ⟨s, p, hreach, hp, of_decide_eq_true htest⟩

theorem storeHandled_iff_fork : ∃ (s : State (Fin 2)) (p : Proc),
    (sys smallRam (Fin 2)).Reachable s ∧ s.slot 1 = .live p ∧
    (p.pt.pte 0).flags.cow = true ∧ StoreHandled smallRam 5 s.kmem p.pt := by
  obtain ⟨s, p, hreach, hp, hu, hcow, hfree⟩ := forked_child
  refine ⟨s, p, hreach, hp, hcow, (storeHandled_iff hreach hp 5).mpr ?_⟩
  rw [show 5 / PGSIZE = 0 by simp [PGSIZE]]
  exact ⟨hu.1, hu.2.1, fun _ => ⟨hu.2.2.2.1, hfree⟩⟩

/-- A store at `MAXVA` runs into the panic of `walk`. -/
theorem store_at_maxva_panics : ¬ ∀ (s : State (Fin 2)) (i : Fin 2) (p : Proc),
    (sys smallRam (Fin 2)).Reachable s → s.slot i = .live p →
      ∀ va < 2 ^ 64, StoreHandled smallRam va s.kmem p.pt := by
  intro hall
  have hrun : (runFrom smallRam (0 : Fin 2) [] []).map (fun s => s.check 0 fun _ _ => true) =
      some true := by decide +kernel
  obtain ⟨s, p, hreach, hp, -⟩ := live_of_runFrom hrun
  obtain ⟨ok, k', pt', heq, -⟩ := hall s 0 p hreach hp (2 ^ 38) (by decide)
  refine storeFault_not_reached ?_ _ heq
  simp [PGSIZE, MAXVPN]

end Xv6.Vm
