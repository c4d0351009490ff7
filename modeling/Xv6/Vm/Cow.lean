import Xv6.Vm.Grow
import Xv6.Vm.View

/-! # Writing to user memory

Stores and `copyout` change only the address space they are meant for: a page that is not marked
copy-on-write has no other user, and a marked one is replaced by a copy first.
-/

namespace Xv6.Vm
set_option autoImplicit false
open Kmem RefPool
open Outcome (ensures_bind ensures_ok)

section
variable {R : Ram} {M : Multiset (Share Ppn)} {k : Kmem} {pt : PageTable} {v n : ℕ}

theorem space_eq_some {p : UPage} : pt.space k v = some p ↔
    v < TRAPFRAME ∧ (pt.pte v).flags.v = true ∧ p = ⟨k.data (pt.pte v).ppn, (pt.pte v).flags⟩ := by
  simp only [PageTable.space]
  split
  · next h => simp [h, eq_comm]
  · next h =>
    simp only [reduceCtorEq, false_iff]
    rintro ⟨hv, hvalid, -⟩
    exact h ⟨hv, hvalid⟩

section
variable (hok : PtOk pt n)
include hok

theorem PtOk.space_eq (hv : v < n) :
    pt.space k v = some ⟨k.data (pt.pte v).ppn, (pt.pte v).flags⟩ := by
  have := hok.size_le
  have hlt : v < TRAPFRAME := by omega
  exact space_eq_some.mpr ⟨hlt, (hok.valid_iff v hlt).mpr hv, rfl⟩

theorem write_post (hE : KOk R k (pt.shares + M)) (hv : v < n) (hcow : (pt.pte v).flags.cow = false)
    (off : ℕ) (src : List UInt8) :
    Post R M k n ((pt.space k).write v off src) (k.write (pt.pte v).ppn off src) pt := by
  have hle := hok.size_le
  have hlt : v < TRAPFRAME := by omega
  have hvalid : (pt.pte v).flags.v = true := (hok.valid_iff v hlt).mpr hv
  have hzero := uses_private hE hlt hvalid hcow
  rw [uses_add] at hzero
  refine ⟨hok, hE, ?_, ?_⟩
  · refine Keeps.of_unused (pt.pte v).ppn (by omega) fun q hq => ?_
    simp [Kmem.write, hq]
  · rw [space_update pt k (pt.pte v) hlt hvalid ?_ ?_]
    · simp [Space.write, hok.space_eq hv, Kmem.write]
    · intro w _
      split
      · next h => rw [h]
      · rfl
    · intro w hw hne hwvalid
      have hother := uses_entry (pt.setPte v .zero) hw
        (by simpa [PageTable.setPte, hne] using hwvalid)
      have hpte : (pt.setPte v .zero).pte w = pt.pte w := by simp [PageTable.setPte, hne]
      rw [hpte] at hother
      have hdiff : (pt.pte w).ppn ≠ (pt.pte v).ppn := by
        intro h
        rw [h] at hother
        omega
      simp [Kmem.write, hdiff]

/-! ## The copy-on-write fault -/

theorem cowCopy_ensures (hcow : (pt.pte v).flags.cow = true) (hE : KOk R k (pt.shares + M)) :
    (cowCopy R v (pt.pte v).ppn k pt).Ensures (Expected R) fun r =>
      r.1 = true ∧ r.2.1.oom = k.oom ∧
        Post R M k n ((pt.space k).setFlags v Space.cowFlags) r.2.1 r.2.2 := by
  obtain ⟨hlt, hvalid, hvn⟩ := hok.lt_of_cow hcow
  unfold cowCopy
  rcases hk : kalloc k with ⟨_ | mem, k1⟩
  · exact expected_fault R
  obtain ⟨hx, hzero, -, hoom1⟩ := kalloc_some hk hE
  have hkeep1 := kalloc_keeps hk hE
  dsimp only
  set k2 := k1.copyPage mem (pt.pte v).ppn with hk2
  have hkeep2 : Keeps (pt.shares + M) k k2 := by
    refine hkeep1.trans (Keeps.of_unused mem hzero fun q hq => ?_)
    simp [hk2, copyPage, hq]
  have hmem : k2.data mem = k.data (pt.pte v).ppn := by
    simp only [hk2, copyPage, Function.update_self]
    exact hkeep1.entry hlt hvalid
  have hE2 : KOk R k2 (.sole mem ::ₘ (pt.shares + M)) := hx (.sole mem) rfl
  have hfound : mapPage v mem cowPerm k2 pt =
      .ok (true, k2, pt.setPte v ⟨mem, { cowPerm with v := true }⟩) := by
    rw [mapPage_found (hok.reaches hvalid) (by simp only [TRAPFRAME] at hlt; omega), if_neg]
    simp [hcow]
  have hmap := (mapPage_own_ensures cowPerm rfl hok.wf hlt (fun _ => hcow) hE2).of_ok hfound
  rw [show mappages 1 v mem cowPerm k2 pt = mapPage v mem cowPerm k2 pt from rfl, hfound]
  refine ensures_bind (ensures_ok.mpr ?_)
  set pt2 := pt.setPte v ⟨mem, { cowPerm with v := true }⟩ with hpt2
  rw [if_pos rfl]
  have hE3 : KOk R k2 (.shared (pt.pte v).ppn ::ₘ (pt2.shares + M)) := by
    have h := (hmap.mapped rfl).2
    rwa [Pte.share, if_pos hvalid, if_pos hcow, Multiset.singleton_add] at h
  refine ensures_bind (((kfree_ensures hE3).mono ?_).weaken fun _ h => h.elim)
  rintro k3 ⟨hE4, hkeep3, hoom3⟩
  have hok2 : PtOk pt2 n := by
    refine hok.update hmap.wf rfl hlt rfl rfl (fun _ => rfl)
      (fun w hw _ hwv => ppn_ne_of_unused hzero w hw hwv) hok.size_le fun w => ?_
    constructor
    · exact Or.inr
    · rintro (rfl | h)
      · exact hvn
      · exact h
  refine ⟨rfl, hoom3.trans hoom1, hok2, hE4, hkeep2.right.trans hkeep3.right, ?_⟩
  have hspace2 : pt2.space k3 = pt2.space k2 :=
    space_congr (fun _ _ => rfl) fun w hw hwv => hkeep3.entry hw hwv
  have hspace1 : pt.space k2 = pt.space k :=
    space_congr (fun _ _ => rfl) fun w hw hwv => hkeep2.entry hw hwv
  have h := hmap.space rfl hlt rfl
  show pt2.space k3 = _
  rw [hspace2, show pt2.space k2 = _ from h, hspace1, hmem]
  simp [Space.setFlags, hok.space_eq hvn, Space.cowFlags]

theorem storeFault_ensures (hE : KOk R k (pt.shares + M)) :
    (storeFault R v k pt).Ensures (Expected R) fun r =>
      r.1 = (pt.pte v).flags.cow ∧ r.2.1.oom = k.oom ∧
        Post R M k n (if (pt.pte v).flags.cow then (pt.space k).setFlags v Space.cowFlags
          else pt.space k) r.2.1 r.2.2 := by
  rw [storeFault, walk_find]
  split
  · exact expected_panic R (by decide)
  refine ensures_bind (ensures_ok.mpr ?_)
  dsimp only
  split
  · exact expected_fault R
  cases hcow : (pt.pte v).flags.cow with
  | false => exact ⟨rfl, rfl, .refl hok hE⟩
  | true => exact cowCopy_ensures hok hcow hE

/-! ## Stores -/

theorem PtOk.storable_iff : pt.storable v = true ↔
    ∃ p, pt.space k v = some p ∧ p.flags.u = true ∧ p.flags.w = true := by
  simp only [PageTable.storable, Bool.and_eq_true, decide_eq_true_eq]
  constructor
  · rintro ⟨⟨⟨⟨-, -⟩, hvalid⟩, hu⟩, hw⟩
    have hlt : v < TRAPFRAME := by
      by_contra hlt
      rw [(hok.high v (not_lt.mp hlt)).1] at hu
      exact Bool.noConfusion hu
    exact ⟨_, space_eq_some.mpr ⟨hlt, hvalid, rfl⟩, hu, hw⟩
  · rintro ⟨p, hp, hu, hw⟩
    obtain ⟨hlt, hvalid, rfl⟩ := space_eq_some.mp hp
    refine ⟨⟨⟨⟨?_, hok.reaches hvalid⟩, hvalid⟩, hu⟩, hw⟩
    simp only [TRAPFRAME] at hlt
    omega

theorem store_done (hE : KOk R k (pt.shares + M)) (hs : pt.storable v = true) (off : ℕ)
    (src : List UInt8) :
    Post R M k n ((pt.space k).write v off src) (k.write (pt.pte v).ppn off src) pt := by
  obtain ⟨p, hp, -, hw⟩ := (hok.storable_iff (k := k)).mp hs
  obtain ⟨hlt, hvalid, rfl⟩ := space_eq_some.mp hp
  exact write_post hok hE ((hok.valid_iff v hlt).mp hvalid) (hok.writable v hlt hw) off src

theorem userStore_ensures {va : ℕ} {b : UInt8} (hE : KOk R k (pt.shares + M)) :
    (userStore R va b k pt).Ensures (Expected R) fun r =>
      r.2.1.oom = k.oom ∧ Post R M k n ((pt.space k).store va b) r.2.1 r.2.2 := by
  unfold userStore
  dsimp only
  split
  · next hs =>
    refine ⟨rfl, ?_⟩
    obtain ⟨p, hp, hu, hw⟩ := (hok.storable_iff (k := k)).mp hs
    have hstore : (pt.space k).store va b =
        (pt.space k).write (va / PGSIZE) (va % PGSIZE) [b] := by
      simp [Space.store, hp, hu, hw]
    rw [hstore]
    exact store_done hok hE hs _ _
  next hs =>
  refine ensures_bind ((storeFault_ensures (v := va / PGSIZE) hok hE).mono ?_)
  rintro ⟨ok, k1, pt1⟩ ⟨hr, hoom, hpost⟩
  have hr : ok = (pt.pte (va / PGSIZE)).flags.cow := hr
  subst hr
  cases hcow : (pt.pte (va / PGSIZE)).flags.cow with
  | false =>
    -- Neither storable nor marked: the store is not done.
    rw [hcow] at hpost
    refine ⟨hoom, ?_⟩
    have hstore : (pt.space k).store va b = pt.space k := by
      cases hp : pt.space k (va / PGSIZE) with
      | none => simp [Space.store, hp]
      | some p =>
        have hno : (p.flags.u && p.flags.w) = false := by
          by_contra h
          simp only [Bool.not_eq_false, Bool.and_eq_true] at h
          exact hs ((hok.storable_iff (k := k)).mpr ⟨p, hp, h⟩)
        obtain ⟨-, -, rfl⟩ := space_eq_some.mp hp
        simp [Space.store, hp, hno, hcow]
    rw [hstore]
    exact hpost
  | true =>
    obtain ⟨hlt, hvalid, hvn⟩ := hok.lt_of_cow hcow
    rw [hcow, if_pos rfl] at hpost
    have hp := hok.space_eq (k := k) hvn
    have hs1 : pt1.storable (va / PGSIZE) = true := by
      refine (hpost.ok.storable_iff (k := k1)).mpr ?_
      rw [show pt1.space k1 = _ from hpost.space]
      refine ⟨_, by rw [Space.setFlags, Function.update_self, hp]; rfl, rfl, rfl⟩
    have hwcow := (hok.writable _ hlt).mt (by simp [hcow])
    have hstore : (pt.space k).store va b =
        ((pt.space k).setFlags (va / PGSIZE) Space.cowFlags).write (va / PGSIZE)
          (va % PGSIZE) [b] := by
      simp [Space.store, hp, hcow, hwcow]
    simp only [hs1, Bool.and_self, if_true]
    refine ⟨hoom, ?_⟩
    have hdone := (store_done hpost.ok hpost.exact hs1 (va % PGSIZE) [b]).after hpost.keeps
    rw [show pt1.space k1 = _ from hpost.space] at hdone
    rw [hstore]
    exact hdone

/-! ## `copyout` -/

theorem PtOk.walkaddr_eq (hE : KOk R k (pt.shares + M)) (v : ℕ) : walkaddr pt v =
    match pt.space k v with
    | none => none
    | some p => if p.flags.u then some (pt.pte v).ppn else none := by
  unfold walkaddr
  cases hp : pt.space k v with
  | none =>
    split
    · rfl
    next hv =>
    rw [if_neg]
    simp only [Bool.and_eq_true]
    rintro ⟨⟨-, hvalid⟩, hu⟩
    have hlt : v < TRAPFRAME := by
      by_contra hlt
      rw [(hok.high v (not_lt.mp hlt)).1] at hu
      exact Bool.noConfusion hu
    have h := space_eq_some (k := k).mpr ⟨hlt, hvalid, rfl⟩
    rw [hp] at h
    cases h
  | some p =>
    obtain ⟨hlt, hvalid, rfl⟩ := space_eq_some.mp hp
    have hppn := (allocatable_of_valid hE hlt hvalid).ne_zero
    rw [if_neg (by simp only [TRAPFRAME] at hlt; omega), hok.reaches hvalid, hvalid, if_neg hppn]
    simp

theorem copyout_write (hE : KOk R k (pt.shares + M)) (hcow : (pt.pte v).flags.cow = false) (off : ℕ)
    (src : List UInt8) : (match walkaddr pt v with
      | none => pure (false, k, pt)
      | some pa0 => pure (true, k.write pa0 off src, pt) :
        Outcome Failure (Bool × Kmem × PageTable)).Ensures (Expected R) fun r =>
      r.2.1.oom = k.oom ∧ r.1 = ((pt.space k).copyoutPage v off src).isSome ∧
        Post R M k n (((pt.space k).copyoutPage v off src).getD (pt.space k)) r.2.1 r.2.2 := by
  rw [hok.walkaddr_eq hE]
  cases hp : pt.space k v with
  | none =>
    have hc : (pt.space k).copyoutPage v off src = none := by simp [Space.copyoutPage, hp]
    rw [hc]
    exact ⟨rfl, rfl, .refl hok hE⟩
  | some p =>
    obtain ⟨hlt, hvalid, rfl⟩ := space_eq_some.mp hp
    dsimp only
    cases hu : (pt.pte v).flags.u with
    | false =>
      have hc : (pt.space k).copyoutPage v off src = none := by simp [Space.copyoutPage, hp, hu]
      rw [hc]
      exact ⟨rfl, rfl, .refl hok hE⟩
    | true =>
      have hc : (pt.space k).copyoutPage v off src = some ((pt.space k).write v off src) := by
        simp [Space.copyoutPage, hp, hu, hcow]
      rw [hc]
      exact ⟨rfl, rfl, write_post hok hE ((hok.valid_iff v hlt).mp hvalid) hcow off src⟩

end

variable {src : List UInt8}

theorem copyoutPage_ensures {off : ℕ} (hok : PtOk pt n) (hE : KOk R k (pt.shares + M)) :
    (copyoutPage R v off src k pt).Ensures (Expected R) fun r =>
      r.2.1.oom = k.oom ∧ r.1 = ((pt.space k).copyoutPage v off src).isSome ∧
        Post R M k n (((pt.space k).copyoutPage v off src).getD (pt.space k)) r.2.1 r.2.2 := by
  unfold copyoutPage
  split
  · next hv =>
    have hp : pt.space k v = none := by
      have : ¬ v < TRAPFRAME := by
        simp only [TRAPFRAME]
        omega
      simp [PageTable.space, this]
    have hc : (pt.space k).copyoutPage v off src = none := by simp [Space.copyoutPage, hp]
    rw [hc]
    exact ⟨rfl, rfl, .refl hok hE⟩
  next hv =>
  rw [walk_find, if_neg hv]
  refine ensures_bind (ensures_ok.mpr ?_)
  dsimp only
  split
  · exact expected_fault R
  cases hcow : (pt.pte v).flags.cow with
  | false =>
    simp only [Bool.false_eq_true, if_false]
    refine ensures_bind (Outcome.ensures_pure.mpr ?_)
    simp only [Bool.not_true, Bool.false_eq_true, if_false]
    exact copyout_write hok hE hcow off src
  | true =>
    obtain ⟨hlt, hvalid, hvn⟩ := hok.lt_of_cow hcow
    have hp := hok.space_eq (k := k) hvn
    rw [if_pos rfl]
    cases hw : walkaddr pt v with
    | none => exact ensures_bind (Outcome.ensures_fail.mpr (expected_fault R))
    | some pa0 =>
      rw [hok.walkaddr_eq hE, hp] at hw
      dsimp only at hw
      split at hw
      · next hu =>
        cases hw
        refine ensures_bind ((cowCopy_ensures hok hcow hE).mono ?_)
        rintro ⟨ok, k1, pt1⟩ ⟨hr, hoom, hpost⟩
        have hr : ok = true := hr
        subst hr
        simp only [Bool.not_true, Bool.false_eq_true, if_false]
        have hspace : pt1.space k1 = (pt.space k).setFlags v Space.cowFlags := hpost.space
        have hp1 : pt1.space k1 v = some ⟨k.data (pt.pte v).ppn, { cowPerm with v := true }⟩ := by
          rw [hspace, Space.setFlags, Function.update_self, hp]
          rfl
        have hcow1 : (pt1.pte v).flags.cow = false := by
          obtain ⟨-, -, h⟩ := space_eq_some.mp hp1
          have hflags : { cowPerm with v := true } = (pt1.pte v).flags := congrArg UPage.flags h
          rw [← hflags]
          rfl
        have hc : (pt.space k).copyoutPage v off src =
            some (((pt.space k).setFlags v Space.cowFlags).write v off src) := by
          simp [Space.copyoutPage, hp, hu, hcow]
        have hc1 : (pt1.space k1).copyoutPage v off src =
            some (((pt.space k).setFlags v Space.cowFlags).write v off src) := by
          simp [Space.copyoutPage, hp1, ← hspace, cowPerm, Flags.none]
        refine (copyout_write hpost.ok hpost.exact hcow1 off src).mono ?_
        rintro ⟨ok2, k2, pt2⟩ ⟨hoom2, hr2, hpost2⟩
        rw [hc1] at hr2 hpost2
        rw [hc]
        exact ⟨hoom2.trans hoom, hr2, hpost2.after hpost.keeps⟩
      · cases hw

theorem copyoutLoop_ensures (fuel : ℕ) {dstva : ℕ} (hok : PtOk pt n)
    (hE : KOk R k (pt.shares + M)) :
    (copyoutLoop R fuel dstva src k pt).Ensures (Expected R) fun r =>
      r.2.1.oom = k.oom ∧ r.1 = (Space.copyoutLoop fuel dstva src (pt.space k)).1 ∧
        Post R M k n (Space.copyoutLoop fuel dstva src (pt.space k)).2 r.2.1 r.2.2 := by
  induction fuel generalizing dstva src k pt with
  | zero => exact ⟨rfl, rfl, .refl hok hE⟩
  | succ fuel ih =>
    unfold copyoutLoop Space.copyoutLoop
    split
    · exact ⟨rfl, rfl, .refl hok hE⟩
    refine ensures_bind ((copyoutPage_ensures hok hE).mono ?_)
    rintro ⟨ok, k1, pt1⟩ ⟨hoom, hr, hpost⟩
    have hr : ok = _ := hr
    subst hr
    dsimp only
    cases hc : (pt.space k).copyoutPage (dstva / PGSIZE) (dstva % PGSIZE)
        (src.take (min (PGSIZE - dstva % PGSIZE) src.length)) with
    | none =>
      rw [hc] at hpost
      exact ⟨hoom, rfl, hpost⟩
    | some m =>
      rw [hc] at hpost
      have hspace : pt1.space k1 = m := hpost.space
      refine (ih hpost.ok hpost.exact).mono ?_
      rw [hspace]
      rintro r ⟨hoom2, hr2, hpost2⟩
      exact ⟨hoom2.trans hoom, hr2, hpost2.after hpost.keeps⟩

theorem copyout_ensures {dstva : ℕ} (hok : PtOk pt n) (hE : KOk R k (pt.shares + M)) :
    (copyout R dstva src k pt).Ensures (Expected R) fun r =>
      r.2.1.oom = k.oom ∧ r.1 = ((pt.space k).copyout dstva src).1 ∧
        Post R M k n ((pt.space k).copyout dstva src).2 r.2.1 r.2.2 :=
  copyoutLoop_ensures src.length hok hE

/-! ## `uvmclear` and `uvmfirst` -/

theorem uvmclear_ensures (hok : PtOk pt n) (hE : KOk R k (pt.shares + M)) (hv : v < n) :
    (uvmclear v k pt).Ensures (Expected R) fun pt' =>
      Post R M k n ((pt.space k).setFlags v clearUser) k pt' := by
  have hle := hok.size_le
  have hlt : v < TRAPFRAME := by omega
  have hvalid : (pt.pte v).flags.v = true := (hok.valid_iff v hlt).mpr hv
  rw [uvmclear, walk_find]
  split
  · exact expected_panic R (by decide)
  refine ensures_bind (ensures_ok.mpr ?_)
  dsimp only
  split
  · exact expected_panic R (by decide)
  next hfound =>
  set e : Pte := { pt.pte v with flags := { (pt.pte v).flags with u := false } } with he
  have hwf : (pt.setPte v e).Wf := by
    refine setPte_wf hok.wf (by simpa using hfound) fun h => ?_
    rw [show e.flags.v = _ from hvalid] at h
    exact Bool.noConfusion h
  have hshares : (pt.setPte v e).shares = pt.shares := by
    have h := setPte_shares pt hlt e
    rw [show e.share = (pt.pte v).share from rfl, add_comm] at h
    exact add_left_cancel h
  refine ⟨hok.update hwf rfl hlt hvalid (hok.leaf v hvalid) ?_ (hok.ppn_ne hlt hvalid) hle
    fun w => ?_, ?_, Keeps.refl, ?_⟩
  · exact hok.writable v hlt
  · constructor
    · exact Or.inr
    · rintro (rfl | h)
      · exact hv
      · exact h
  · rw [hshares]
    exact hE
  · rw [space_update pt k e hlt hvalid ?_ fun _ _ _ _ => rfl]
    · simp [Space.setFlags, hok.space_eq hv, clearUser, he]
    · intro w _
      simp [PageTable.setPte, Function.update_apply]

theorem uvmfirst_ensures (hok : PtOk pt 0) (hE : KOk R k (pt.shares + M)) :
    (uvmfirst src k pt).Ensures (Expected R) fun r => r.1.oom = false →
      Post R M k 1 (((pt.space k).grow 0 1 cowPerm).write 0 0 src) r.1 r.2 := by
  have hlt : 0 < TRAPFRAME := by simp [TRAPFRAME, MAXVPN]
  unfold uvmfirst
  split
  · exact expected_panic R (by decide)
  rcases hk : kalloc k with ⟨_ | mem, k1⟩
  · exact expected_fault R
  obtain ⟨hx, hzero, -, -⟩ := kalloc_some hk hE
  have hkeep1 : Keeps (pt.shares + M) k (k1.memset mem 0) := by
    refine (kalloc_keeps hk hE).trans (Keeps.of_unused mem hzero fun q hq => ?_)
    simp [memset, hq]
  have hE1 : KOk R (k1.memset mem 0) (.sole mem ::ₘ (pt.shares + M)) := hx (.sole mem) rfl
  have hnone : pt.pte 0 = .zero := hok.not_valid le_rfl hlt
  have hfree : (pt.pte 0).flags.v = true → (pt.pte 0).flags.cow = true := by
    rw [hnone]
    exact fun h => h
  refine ensures_bind ((mapPage_own_ensures _ rfl hok.wf hlt hfree hE1).mono ?_)
  rintro ⟨ok, k2, pt2⟩ hmap ho
  have hr : ok = true := (hmap.oom ho).2
  subst hr
  have hok2 : PtOk pt2 1 :=
    hok.update hmap.wf (hmap.mapped rfl).1 hlt rfl rfl (fun _ => rfl)
      (fun w hw _ hwv => ppn_ne_of_unused hzero w hw hwv) hlt fun w => by omega
  have hE2 : KOk R k2 (pt2.shares + M) := by
    have h := (hmap.mapped rfl).2
    rwa [hnone, Pte.share_zero, zero_add] at h
  have hspace1 : pt.space (k1.memset mem 0) = pt.space k :=
    space_congr (fun _ _ => rfl) fun w hw hwv => hkeep1.entry hw hwv
  have hspace2 : pt2.space k2 = (pt.space k).grow 0 1 cowPerm := by
    have h := hmap.space rfl hlt rfl
    rw [show pt2.space k2 = _ from h, hspace1]
    funext w
    by_cases hw : w = 0
    · subst hw
      simp [Space.grow, memset, cowPerm]
    · simp only [Function.update_of_ne hw, Space.grow]
      rw [if_neg (by omega)]
  have hpte : pt2.pte 0 = ⟨mem, { cowPerm with v := true }⟩ := by
    rw [show pt2.pte = _ from (hmap.mapped rfl).1, Function.update_self]
    rfl
  have hkeep2 : Keeps M k k2 := by
    refine hkeep1.right.trans (hmap.keeps.mono ?_)
    exact (Multiset.le_add_left _ _).trans (Multiset.le_cons_self _ _)
  have hpost := (write_post hok2 hE2 Nat.one_pos (by rw [hpte]; rfl) 0 src).after hkeep2
  rw [hspace2, hpte] at hpost
  exact hpost

end
end Xv6.Vm
