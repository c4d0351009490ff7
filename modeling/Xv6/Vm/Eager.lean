import Xv6.Vm.Exact
import Xv6.Vm.Rights

/-! # Copy-on-write `fork` refines eager copying

The reference model is a kernel in which `fork` gives the child a copy of every page at once. Both
kernels take the same events, and as long as memory does not run out every process reads the same
bytes in both.
-/

namespace Xv6.Vm
set_option autoImplicit false

section
variable {I : Type} [DecidableEq I]

def lockstep (R : Ram) (I : Type) [DecidableEq I] :
    TransSys (State I × (I → SlotView)) (Event I) :=
  paired R I fun _ _ _ => true

/-- Page `v` of process `i`, if it is mapped, is one that the user may access. -/
def Accessible (V : I → SlotView) (i : I) (v : ℕ) : Prop :=
  ∀ q, (V i).space v = some q → q.flags.u = true

/-- The events of the reference model: stores hit pages that were mapped writable when they were
created, and `copyout` user-accessible ones. -/
def Proper (V : I → SlotView) : Event I → Prop
  | .store i va _ => ∀ q, (V i).space (va / PGSIZE) = some q → q.flags.w = true
  | .copyout i dstva src =>
    ∀ v, dstva / PGSIZE ≤ v → v * PGSIZE < dstva + src.length → Accessible V i v
  | _ => True

def State.load (s : State I) (i : I) (va : ℕ) : Option UInt8 :=
  match s.slot i with
  | .live p => userLoad s.kmem p.pt va
  | _ => none

def State.copyin (s : State I) (i : I) (srcva len : ℕ) : Option (List UInt8) :=
  match s.slot i with
  | .live p => Xv6.Vm.copyin s.kmem p.pt srcva len
  | _ => Space.empty.copyin srcva len

end

/-! ## Reading through the page table -/

section
variable {pt : PageTable} {n : ℕ}

theorem PtOk.userLoad_eq (hok : PtOk pt n) (k : Kmem) (va : ℕ) :
    userLoad k pt va = (pt.space k).load va := by
  unfold userLoad Space.load
  cases hp : pt.space k (va / PGSIZE) with
  | none =>
    rw [if_neg]
    · rfl
    · simp only [PageTable.loadable, Bool.and_eq_true]
      rintro ⟨⟨⟨⟨-, -⟩, hvalid⟩, hu⟩, -⟩
      have hlt : va / PGSIZE < TRAPFRAME := by
        by_contra hlt
        rw [(hok.high _ (not_lt.mp hlt)).1] at hu
        exact Bool.noConfusion hu
      have h := space_eq_some (k := k).mpr ⟨hlt, hvalid, rfl⟩
      rw [hp] at h
      cases h
  | some p =>
    obtain ⟨hlt, hvalid, rfl⟩ := space_eq_some.mp hp
    have hmax : va / PGSIZE < MAXVPN := by
      simp only [TRAPFRAME] at hlt
      omega
    simp [PageTable.loadable, hmax, hok.reaches hvalid, hvalid]

theorem PtOk.copyinLoop_eq {R : Ram} {M : Multiset (RefPool.Share Ppn)} {k : Kmem} (hok : PtOk pt n)
    (hE : KOk R k (pt.shares + M)) (fuel srcva len : ℕ) :
    copyinLoop k pt fuel srcva len = (pt.space k).copyinLoop fuel srcva len := by
  induction fuel generalizing srcva len with
  | zero => rfl
  | succ fuel ih =>
    unfold copyinLoop Space.copyinLoop
    split
    · rfl
    dsimp only
    rw [hok.walkaddr_eq hE]
    cases hp : pt.space k (srcva / PGSIZE) with
    | none => rfl
    | some p =>
      obtain ⟨-, -, rfl⟩ := space_eq_some.mp hp
      dsimp only
      cases (pt.pte (srcva / PGSIZE)).flags.u with
      | false => rfl
      | true => simp only [if_true, ih]

end

/-! ## The relation between the pages -/

/-- Page `p` of this kernel stands for page `q` of the reference model. -/
def Agrees (p q : UPage) : Prop :=
  (q.flags.u = true → p.data = q.data ∧ p.flags.u = true ∧ p.flags.r = q.flags.r) ∧
    (q.flags.w = true → p.flags.w = true ∨ p.flags.cow = true) ∧ q.flags.cow = false ∧
    q.flags.r = true

theorem agrees_pageSim : PageSim Agrees where
  share := fun ⟨hu, _, hc, hr⟩ => ⟨hu, fun _ => .inr rfl, hc, hr⟩
  fresh := fun _ => ⟨fun _ => ⟨rfl, rfl, rfl⟩, .inl, rfl, rfl⟩
  first := fun _ => ⟨fun _ => ⟨rfl, rfl, rfl⟩, .inl, rfl, rfl⟩
  write := by
    rintro p q off src ⟨hu, hw, hc, hr⟩
    refine ⟨fun h => ?_, hw, hc, hr⟩
    obtain ⟨hd, hpu, hpr⟩ := hu h
    exact ⟨by simp only [hd], hpu, hpr⟩
  clear := by
    rintro p q ⟨-, hw, hc, hr⟩
    exact ⟨by simp [clearUser], hw, hc, hr⟩
  copyout := by
    rintro p off src ⟨hu, hw, hc, hr⟩
    simp only [UPage.copyout, hc, Bool.false_eq_true, if_false]
    exact ⟨fun h => ⟨rfl, h, rfl⟩, hw, hc, hr⟩

theorem Agrees.store {p q : UPage} (h : Agrees p q) (hw : q.flags.w = true) (off : ℕ) (b : UInt8) :
    Agrees (p.store off b) (q.store off b) := by
  obtain ⟨hacc, hcow, hc, hr⟩ := h
  cases hu : q.flags.u with
  | true =>
    obtain ⟨hd, hpu, hpr⟩ := hacc hu
    have hq : q.store off b = { q with data := q.data.overwrite off [b] } := by
      simp [UPage.store, hu, hw]
    rw [hq]
    cases hpw : p.flags.w with
    | true =>
      have hp : p.store off b = { p with data := p.data.overwrite off [b] } := by
        simp [UPage.store, hpu, hpw]
      rw [hp]
      exact ⟨fun _ => ⟨by simp only [hd], hpu, hpr⟩, fun _ => .inl hpw, hc, hr⟩
    | false =>
      -- The page is shared: the fault handler gives the process a copy with all rights.
      have hpc : p.flags.cow = true := by
        rcases hcow hw with h | h
        · rw [hpw] at h
          exact Bool.noConfusion h
        · exact h
      have hp : p.store off b = ⟨p.data.overwrite off [b], { cowPerm with v := true }⟩ := by
        simp [UPage.store, hpw, hpc]
      rw [hp]
      exact ⟨fun _ => ⟨by simp only [hd], rfl, hr.symm⟩, fun _ => .inl rfl, hc, hr⟩
  | false =>
    have hq : q.store off b = q := by simp [UPage.store, hu, hc]
    rw [hq]
    refine ⟨fun h => ?_, fun _ => ?_, hc, hr⟩
    · rw [hu] at h
      exact Bool.noConfusion h
    · unfold UPage.store
      split
      · exact hcow hw
      · split
        · exact .inl rfl
        · exact hcow hw

theorem Agrees.copyout {p q : UPage} (h : Agrees p q) (hu : q.flags.u = true) (off : ℕ)
    (src : List UInt8) :
    p.flags.u = q.flags.u ∧ Agrees (p.copyout off src) (q.copyout off src) := by
  obtain ⟨hacc, hcow, hc, hr⟩ := h
  obtain ⟨hd, hpu, hpr⟩ := hacc hu
  refine ⟨hpu.trans hu.symm, ?_⟩
  have hq : q.copyout off src = { q with data := q.data.overwrite off src } := by
    simp [UPage.copyout, hc]
  rw [hq]
  unfold UPage.copyout
  split
  · exact ⟨fun _ => ⟨by simp only [hd], rfl, hr.symm⟩, fun _ => .inl rfl, hc, hr⟩
  · exact ⟨fun _ => ⟨by simp only [hd], hpu, hpr⟩, hcow, hc, hr⟩

/-! ## Reading both address spaces -/

section
variable {m q : Space}

theorem Pointwise.load (h : Pointwise Agrees m q) {va : ℕ}
    (hu : ∀ p, q (va / PGSIZE) = some p → p.flags.u = true) : m.load va = q.load va := by
  unfold Space.load
  have hv := h (va / PGSIZE)
  generalize m (va / PGSIZE) = x at hv
  generalize hy : q (va / PGSIZE) = y at hv
  cases hv with
  | none => rfl
  | some hpq =>
    obtain ⟨hd, hpu, hpr⟩ := hpq.1 (hu _ hy)
    simp [hd, hpu, hpr, hu _ hy]

theorem Pointwise.copyinLoop (h : Pointwise Agrees m q) (fuel : ℕ) {srcva len : ℕ}
    (hu : ∀ v, srcva / PGSIZE ≤ v → v * PGSIZE < srcva + len →
      ∀ p, q v = some p → p.flags.u = true) :
    m.copyinLoop fuel srcva len = q.copyinLoop fuel srcva len := by
  have hpos : 0 < PGSIZE := by simp [PGSIZE]
  induction fuel generalizing srcva len with
  | zero => rfl
  | succ fuel ih =>
    unfold Space.copyinLoop
    split
    · rfl
    next hlen =>
    dsimp only
    have hhere : srcva / PGSIZE * PGSIZE < srcva + len := by
      have := Nat.div_mul_le_self srcva PGSIZE
      omega
    have hv := h (srcva / PGSIZE)
    have hacc := hu (srcva / PGSIZE) le_rfl hhere
    generalize m (srcva / PGSIZE) = x at hv
    generalize q (srcva / PGSIZE) = y at hv hacc
    cases hv with
    | none => rfl
    | some hpq =>
      obtain ⟨hd, hpu, -⟩ := hpq.1 (hacc _ rfl)
      dsimp only
      rw [hpu, hacc _ rfl, hd, ih]
      intro v hle hlt
      rw [Nat.mul_div_cancel _ hpos] at hle
      exact hu v (by omega) (touched_of_next hpos hle hlt)

end

/-! ## The refinement -/

section
variable {I : Type} [Fintype I] [DecidableEq I] {R : Ram}

theorem lockstep_step {x y : State I × (I → SlotView)} {e : Event I} (hinv : Inv R x.1)
    (hrel : x.1.kmem.oom = false → ViewRel (Pointwise Agrees) x.1.view x.2) (hproper : Proper x.2 e)
    (hstep : (lockstep R I).step x e y) :
    Inv R y.1 ∧ (y.1.kmem.oom = false → ViewRel (Pointwise Agrees) y.1.view y.2) := by
  obtain ⟨hs, hr⟩ := hstep
  obtain ⟨hinv', n, ok, hview, hoom⟩ := (step_ensures hinv e).of_ok hs
  refine ⟨hinv', fun ho => ?_⟩
  obtain ⟨ho0, rfl⟩ := hoom ho
  rw [hview, hr]
  refine (hrel ho0).step agrees_pageSim.spaceSim n true e ?_ ?_
  · rintro i va b rfl p q hp hq hpq
    rw [Space.store_eq, Space.store_eq]
    refine hpq.map _ fun p' q' _ hq' h => h.store (hproper q' ?_) _ _
    rw [hq]
    exact hq'
  · rintro i dstva src rfl p q hp hq hpq
    refine hpq.copyoutLoop src.length (P := fun _ q' => q'.flags.u = true) ?_ ?_
    · intro v hle hlt p' q' _ hq'
      refine hproper v hle hlt q' ?_
      rw [hq]
      exact hq'
    · intro p' q' off src' h hu
      exact h.copyout hu off src'

omit [DecidableEq I] in
theorem Inv.load_eq {s : State I} (h : Inv R s) (i : I) (va : ℕ) :
    s.load i va = (s.view i).space.load va := by
  cases hi : s.slot i with
  | unused | fresh x =>
    simp [State.load, State.view, Slot.view, SlotView.space, hi, Space.load, Space.empty]
  | live x =>
    simp only [State.load, State.view, Slot.view, SlotView.space, hi]
    exact (h.live_ok hi).userLoad_eq _ _

/-- In every run of both kernels on the same proper events, in which memory does not run out, each
process reads the same bytes in both, with loads and with `copyin`, at every address of a page that
the user may access in the reference model. -/
theorem reads_eq_eager {x : State I × (I → SlotView)}
    (hx : ((lockstep R I).restrict fun x e => Proper x.2 e).Reachable x)
    (hmem : x.1.kmem.oom = false) (i : I) :
    (∀ va, Accessible x.2 i (va / PGSIZE) → x.1.load i va = (x.2 i).space.load va) ∧
    ∀ srcva len, (∀ v, srcva / PGSIZE ≤ v → v * PGSIZE < srcva + len → Accessible x.2 i v) →
      x.1.copyin i srcva len = (x.2 i).space.copyin srcva len := by
  have h : Inv R x.1 ∧ (x.1.kmem.oom = false → ViewRel (Pointwise Agrees) x.1.view x.2) := by
    clear hmem
    induction hx with
    | init h =>
      obtain ⟨hb, hr⟩ := h
      refine ⟨(boot_inv hb).1, fun _ => ?_⟩
      rw [hr]
      exact boot_rel agrees_pageSim hb
    | step _ hs ih => exact lockstep_step ih.1 ih.2 hs.1 hs.2
  have hrel := h.2 hmem
  cases hslot : x.1.slot i with
  | live p =>
    have hok := h.1.live_ok hslot
    have hview : x.1.view i = .live (p.view x.1.kmem) := by
      rw [State.view, hslot]
      rfl
    obtain ⟨q, hq, hspace, -⟩ := hrel.live hview
    have hspace : Pointwise Agrees (p.pt.space x.1.kmem) q.space := hspace
    simp only [State.load, State.copyin, hslot, hq, SlotView.space, Accessible]
    refine ⟨fun va hu => ?_, fun srcva len hu => ?_⟩
    · rw [hok.userLoad_eq]
      exact hspace.load hu
    · rw [copyin, hok.copyinLoop_eq (h.1.exact_live hslot)]
      exact hspace.copyinLoop len hu
  | unused | fresh p =>
    have hq : (x.2 i).space = .empty := by
      have hi := hrel i
      rw [State.view, hslot] at hi
      cases hx2 : x.2 i with
      | live q => simp [hx2, Slot.view, SlotRel] at hi
      | unused => rfl
      | fresh => rfl
    simp only [State.load, State.copyin, hslot, hq]
    exact ⟨fun _ _ => by simp [Space.load, Space.empty], fun _ _ _ => trivial⟩

end

/-! ## A run with `fork` and stores on both sides -/

def forkStores : List (Event (Fin 2)) :=
  [.allocproc 1, .fork 0 1, .store 1 5 7, .store 0 5 9]

def properTest {I : Type} (V : I → SlotView) : Event I → Bool
  | .store i va _ => ((V i).space (va / PGSIZE)).all fun q => q.flags.w
  | .copyout _ _ _ => false
  | _ => true

theorem proper_of_test {I : Type} (V : I → SlotView) (e : Event I) (h : properTest V e = true) :
    Proper V e := by
  cases e with
  | store i va b =>
    intro q hq
    simpa [properTest, hq] using h
  | copyout i dstva src => cases h
  | _ => trivial

theorem reads_eq_eager_forkStores : ∃ x : State (Fin 2) × (Fin 2 → SlotView),
    ((lockstep smallRam (Fin 2)).restrict fun x e => Proper x.2 e).Reachable x ∧
    x.1.load 0 5 = some 9 ∧ x.1.load 1 5 = some 7 := by
  have hrun : (pairedFrom smallRam (fun _ _ _ => true) properTest (0 : Fin 2) forkStores).map
      (fun x => decide (x.1.kmem.oom = false ∧
        (((x.2 0).space (5 / PGSIZE)).all fun q => q.flags.u) = true ∧
        (((x.2 1).space (5 / PGSIZE)).all fun q => q.flags.u) = true ∧
        (x.2 0).space.load 5 = some 9 ∧ (x.2 1).space.load 5 = some 7)) = some true := by
    decide +kernel
  obtain ⟨x, hx, hcheck⟩ := Option.map_eq_some_iff.mp hrun
  obtain ⟨hmem, h0, h1, hr0, hr1⟩ := of_decide_eq_true hcheck
  have hreach : ((lockstep smallRam (Fin 2)).restrict fun x e => Proper x.2 e).Reachable x :=
    reachable_of_pairedFrom hx fun x e => proper_of_test x.2 e
  refine ⟨x, hreach, ?_, ?_⟩
  · rw [← hr0]
    refine (reads_eq_eager hreach hmem 0).1 5 fun q hq => ?_
    simpa [hq] using h0
  · rw [← hr1]
    refine (reads_eq_eager hreach hmem 1).1 5 fun q hq => ?_
    simpa [hq] using h1

end Xv6.Vm
