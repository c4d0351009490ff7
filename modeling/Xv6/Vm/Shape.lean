import Xv6.Vm.Boot

/-! # The shape of user address spaces

Below the trapframe, a process has exactly the pages below its size, whatever it and the other
processes have done, and so none of the checks of `vm.c` on missing or unexpected mappings fails.
-/

namespace Xv6.Vm
set_option autoImplicit false

def PageTable.Maps (pt : PageTable) (v : ℕ) : Prop :=
  pt.reaches v = true ∧ (pt.pte v).flags.v = true

instance (pt : PageTable) (v : ℕ) : Decidable (pt.Maps v) := inferInstanceAs (Decidable (_ ∧ _))

theorem PtOk.maps_iff {pt : PageTable} {n v : ℕ} (hok : PtOk pt n) (hv : v < TRAPFRAME) :
    pt.Maps v ↔ v < n := by
  constructor
  · rintro ⟨-, hvalid⟩
    exact (hok.valid_iff v hv).mp hvalid
  · intro h
    have hvalid := (hok.valid_iff v hv).mpr h
    exact ⟨hok.reaches hvalid, hvalid⟩

/-- The process of a slot that is in use, also while `fork` is still filling it. -/
def Slot.proc : Slot → Option Proc
  | .unused => none
  | .fresh p | .live p => some p

theorem SlotOk.ptOk {k : Kmem} {x : Slot} (hok : SlotOk k x) {p : Proc} (hp : x.proc = some p) :
    PtOk p.pt (pgroundup p.sz) := by
  cases x with
  | unused => cases hp
  | fresh q =>
    cases hp
    obtain ⟨hpt, hsz, -⟩ := hok
    rw [hsz, pgroundup_zero]
    exact hpt
  | live q =>
    cases hp
    exact hok.1

section
variable {I : Type} [Fintype I] [DecidableEq I] {R : Ram} {s : State I}

/-- In every reachable state a process maps, below the trapframe, exactly the pages below
`PGROUNDUP(p->sz)`, and no operation runs into a panic about a mapping. -/
theorem maps_iff_below_size (hR : R.stop ≤ PHYSTOP) (hs : (sys R I).Reachable s) :
    (∀ i p, (s.slot i).proc = some p → ∀ v, v < TRAPFRAME →
      (p.pt.Maps v ↔ v < pgroundup p.sz)) ∧
    ∀ e, ∀ msg ∈ shapePanics, step R s e ≠ .fail (.panic msg) := by
  have h := reachable_inv hs
  constructor
  · intro i p hp v hv
    exact ((h.slots i).ptOk hp).maps_iff hv
  · intro e msg hmsg hfail
    have hexpected : Expected R (.panic msg) := (step_ensures h e).of_fail hfail
    exact hexpected hR msg hmsg rfl

end

theorem maps_iff_below_size_grown : ∃ s : State (Fin 2), (sys smallRam (Fin 2)).Reachable s ∧
    ∃ p, (s.slot 1).proc = some p ∧ p.sz = 8996 ∧ p.pt.Maps 2 ∧ ¬ p.pt.Maps 3 ∧
      step smallRam s (.growproc 1 (-9000)) ≠ .fail (.panic "uvmunmap: not mapped") := by
  have hrun : (runFrom smallRam (0 : Fin 2) [] [.growproc 0 5000, .growproc 0 (-100), .allocproc 1,
      .fork 0 1]).map (fun s => ((s.slot 1).proc.map Proc.sz)) = some (some 8996) := by
    decide +kernel
  obtain ⟨s, hs, hsz⟩ := Option.map_eq_some_iff.mp hrun
  obtain ⟨p, hp, hsz⟩ := Option.map_eq_some_iff.mp hsz
  obtain ⟨s0, hboot, hruns⟩ := run_of_runFrom hs
  have hreach := (TransSys.Reachable.init hboot).run hruns
  obtain ⟨hmaps, hpanic⟩ := maps_iff_below_size (by decide) hreach
  have hpages : pgroundup p.sz = 3 := by simp [hsz, pgroundup, PGSIZE]
  have htop : 3 < TRAPFRAME := by simp [TRAPFRAME, MAXVPN]
  refine ⟨s, hreach, p, hp, hsz, ?_, ?_, hpanic _ _ (by decide)⟩
  · rw [hmaps 1 p hp 2 (by omega), hpages]
    omega
  · rw [hmaps 1 p hp 3 htop, hpages]
    omega

end Xv6.Vm
