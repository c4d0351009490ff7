import Xv6.Vm.ExecInv

/-! # The state after booting -/

namespace Xv6.Vm
set_option autoImplicit false
open Kmem RefPool

theorem freerange_eq {R : Ram} (l : List Ppn) (hl : ∀ pg ∈ l, R.Allocatable pg) (k : Kmem)
    (href : k.refCount = fun _ => 0) :
    ∃ k', l.foldlM (freeOne R) k = .ok k' ∧ (k'.refCount = fun _ => 0) ∧
      k'.freelist = l.reverse ++ k.freelist := by
  induction l generalizing k with
  | nil => exact ⟨k, rfl, href, rfl⟩
  | cons pg l ih =>
    have hpg := hl pg (by simp)
    obtain ⟨k1, hk1, href1, hfree1⟩ : ∃ k1, freeOne R k pg = .ok k1 ∧
        (k1.refCount = fun _ => 0) ∧ k1.freelist = pg :: k.freelist := by
      unfold freeOne kfree
      rw [if_neg (not_not.mpr hpg)]
      simp only [Function.update_self, sub_self, if_true]
      refine ⟨_, rfl, ?_, rfl⟩
      funext q
      by_cases hq : q = pg
      · simp [memset, hq]
      · simp [memset, href]
    obtain ⟨k', hk', href', hfree'⟩ :=
      ih (fun q hq => hl q (List.mem_cons_of_mem _ hq)) k1 href1
    refine ⟨k', ?_, href', ?_⟩
    · rw [List.foldlM_cons, hk1]
      exact hk'
    · rw [hfree', hfree1, List.reverse_cons, List.append_assoc]
      rfl

theorem mem_range'_sub {a b x : ℕ} : x ∈ List.range' a (b - a) ↔ a ≤ x ∧ x < b := by
  rw [List.mem_range'_1]
  omega

theorem kinit_exact {R : Ram} {data : Ppn → Page} {k : Kmem} (hk : kinit R data = .ok k) :
    KOk R k 0 := by
  have hmem : ∀ pg, pg ∈ List.range' R.first (R.stop - R.first) ↔ R.Allocatable pg :=
    fun pg => mem_range'_sub
  obtain ⟨k', hk', href, hfree⟩ := freerange_eq
    (List.range' R.first (R.stop - R.first)) (fun pg h => (hmem pg).mp h)
    { refCount := fun _ => 0, freelist := [], data := data, oom := false } rfl
  rw [kinit, hk'] at hk
  cases hk
  rw [List.append_nil] at hfree
  refine ⟨?_, ?_, ?_, by simp, by simp⟩
  · intro pg _
    simp [href]
  · intro pg hpg
    have hcount : (List.range' R.first (R.stop - R.first)).count pg = 1 :=
      List.count_eq_one_of_mem (List.nodup_range') ((hmem pg).mpr hpg)
    simp [hfree, hcount]
  · intro pg hpg
    rw [hfree, List.mem_reverse] at hpg
    exact (hmem pg).mp hpg

def firstSpace (initcode : List UInt8) : Space := (Space.empty.grow 0 1 cowPerm).write 0 0 initcode

section
variable {I : Type} [Fintype I] [DecidableEq I] {R : Ram} {s : State I}

theorem kernelPages_ensures (n : ℕ) (h : Inv R s) :
    (kernelPages R n s).Ensures (Expected R) fun s' => Inv R s' ∧ s'.view = s.view := by
  induction n generalizing s with
  | zero => exact ⟨h, rfl⟩
  | succ n ih =>
    refine Outcome.ensures_bind ((kalloc_step h).mono ?_)
    rintro s1 ⟨hinv, _, ok, hview, -⟩
    refine (ih hinv).mono ?_
    rintro s2 ⟨hinv2, hview2⟩
    exact ⟨hinv2, hview2.trans hview⟩

theorem boot_first {data : Ppn → Page} {n : ℕ} {i : I} {initcode : List UInt8}
    (hboot : boot R data n i initcode = .ok s) (hoom : s.kmem.oom = false) : Inv R s ∧
    s.view = Function.update (fun _ => .unused) i
      (.live ⟨firstSpace initcode, PGSIZE, none⟩) := by
  obtain ⟨k, hk, hboot⟩ := Outcome.bind_eq_ok hboot
  obtain ⟨s0, hs0, hu⟩ := Outcome.bind_eq_ok hboot
  have hE := kinit_exact hk
  have hinv0 : Inv R (⟨k, fun _ => .unused, []⟩ : State I) := by
    refine ⟨?_, fun _ => trivial⟩
    simpa [State.shares, Slot.shares, kernelShares] using hE
  obtain ⟨hinv, hview0⟩ := (kernelPages_ensures n hinv0).of_ok hs0
  -- `userinit` is `allocproc`, and then the slot gets its first page.
  have hpost : (userinit R i initcode s0).Ensures (Expected R) fun s' =>
      s'.kmem.oom = false → Inv R s' ∧
        s'.view = Function.update (fun _ => .unused) i
          (.live ⟨firstSpace initcode, PGSIZE, none⟩) := by
    have hunused : s0.slot i = .unused := by
      have hv := congrFun hview0 i
      simp only [State.view, Slot.view] at hv
      split at hv
      · assumption
      · cases hv
      · cases hv
    have halloc := allocproc_step hinv i
    rw [step, hunused] at halloc
    refine Outcome.ensures_bind (halloc.mono ?_)
    rintro s1 ⟨hinv1, n, ok, hview1, -⟩
    cases hslot : s1.slot i with
    | unused => exact expected_fault R
    | live p => exact expected_fault R
    | fresh p =>
      have hok := hinv1.slots i
      rw [hslot] at hok
      obtain ⟨hok, hsz, him⟩ := hok
      have hE1 := hinv1.exact_at i
      rw [hslot] at hE1
      have hE1' : KOk R s1.kmem (p.pt.shares + (.sole p.trapframe ::ₘ s1.rest {i})) := by
        convert hE1 using 1
        simp only [Slot.shares, Proc.shares, him, imageShares, ← Multiset.singleton_add]
        abel
      refine Outcome.ensures_bind ((uvmfirst_ensures hok hE1').mono ?_)
      rintro ⟨k2, pt⟩ hfirst ho
      have hpost := hfirst ho
      have hone : pgroundup PGSIZE = 1 := by simp [pgroundup, PGSIZE]
      have hempty : p.pt.space s1.kmem = .empty := by
        rw [← hok.truncate_self]
        funext v
        simp [Space.truncate, Space.empty]
      rw [hempty] at hpost
      have hset := hinv1.setSlot (x := .live { p with pt := pt, sz := PGSIZE })
        (k := k2) ?_ (hpost.keeps.mono (Multiset.le_cons_self _ _)) ⟨?_, by simp [him]⟩
      · refine ⟨hset.1, hset.2.trans ?_⟩
        have hspace : pt.space k2 = firstSpace initcode := hpost.space
        simp only [Slot.view, Proc.view, hspace, him, Option.map_none]
        funext j
        by_cases hj : j = i
        · subst hj
          simp
        · rw [Function.update_of_ne hj, Function.update_of_ne hj, hview1, hview0]
          cases ok with
          | true => simp [spaceStep, hj, State.view, Slot.view]
          | false => rfl
      · convert hpost.exact using 1
        simp only [Slot.shares, Proc.shares, him, imageShares, ← Multiset.singleton_add]
        abel
      · show PtOk pt (pgroundup PGSIZE)
        rw [hone]
        exact hpost.ok
  exact hpost.of_ok hu hoom

theorem boot_inv (hb : Booted R s) : Inv R s ∧ s.kmem.oom = false ∧ ∃ i initcode,
    s.view = Function.update (fun _ => .unused) i
      (.live ⟨firstSpace initcode, PGSIZE, none⟩) := by
  obtain ⟨data, n, i, initcode, hboot, hoom⟩ := hb
  obtain ⟨hinv, hview⟩ := boot_first hboot hoom
  exact ⟨hinv, hoom, i, initcode, hview⟩

theorem reachable_inv (hs : (sys R I).Reachable s) : Inv R s := by
  induction hs with
  | init h => exact (boot_inv h).1
  | step _ hstep ih => exact ((step_ensures ih _).of_ok hstep).inv

end
end Xv6.Vm
