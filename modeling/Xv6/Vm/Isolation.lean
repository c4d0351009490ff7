import Xv6.Vm.ForkUndo

/-! # Isolation

What a process does to its memory is seen by no other process, and once it is gone every page it
had taken is free again. Pages of the kernel are in no user memory.
-/

namespace Xv6.Vm
set_option autoImplicit false
open Function (update_self update_of_ne)
open Kmem RefPool
open Outcome (Ensures bind_eq_ok)

variable {I : Type} {R : Ram} {s s' : State I} {es : List (Event I)} {q r : I}

/-- The process whose memory an operation is about; for `fork` the child. -/
def Event.target : Event I → Option I
  | .kalloc | .kfree _ => none
  | .fork _ j => some j
  | .allocproc i | .growproc i _ | .store i _ _ | .copyout i _ _ | .freeproc i | .execBegin i
  | .execSegment i _ _ | .execLoad i _ _ | .execStack i | .execArg i _ _ | .execSwitch i
  | .execAbort i => some i

/-! ## The pages of the other processes -/

/-- From `s` to `s'` nothing but the process `q` has taken or given up pages. -/
structure Spares (q : I) (s s' : State I) : Prop where
  kernel : s'.kernel = s.kernel
  uses : ∀ r, r ≠ q → ∀ pg, uses (s'.slot r).shares pg = uses (s.slot r).shares pg

theorem Spares.trans {s1 : State I} (h : Spares q s s1) (h' : Spares q s1 s') : Spares q s s' :=
  ⟨h'.kernel.trans h.kernel, fun r hr pg => (h'.uses r hr pg).trans (h.uses r hr pg)⟩

theorem Spares.setKmem (s : State I) (k : Kmem) : Spares q s { s with kmem := k } :=
  ⟨rfl, fun _ _ _ => rfl⟩

theorem spares_bind {α : Type} {r : Outcome Failure α} {f : α → Outcome Failure (State I)}
    (h : ∀ a, (f a).Ensures (fun _ => True) (Spares q s)) :
    (r >>= f).Ensures (fun _ => True) (Spares q s) := by
  cases r with
  | blocked | fail e => trivial
  | ok a => exact h a

variable [DecidableEq I]

theorem Spares.setSlot (s : State I) (x : Slot) (k : Kmem) : Spares q s (s.setSlot q x k) := by
  refine ⟨rfl, fun r hr pg => ?_⟩
  simp only [State.setSlot, update_of_ne hr]

theorem forkCopy_spares {i : I} {p np : Proc} (hslot : s.slot i = .live p)
    (h : forkCopy R i q p np s = .ok s') : Spares q s s' := by
  obtain ⟨⟨ok, k, old, new⟩, hloop, h⟩ := bind_eq_ok h
  have hmarked : Marked p.pt old := uvmcopyLoop_marked _ _ (Marked.refl _) hloop
  have hparent : Spares q s (s.setSlot i (.live { p with pt := old }) k) := by
    refine ⟨rfl, fun r _ pg => ?_⟩
    by_cases hri : r = i
    · rw [hri, hslot]
      simp only [State.setSlot, update_self, Slot.shares, Proc.shares, uses_cons, uses_add,
        hmarked.uses]
    · simp only [State.setSlot, update_of_ne hri]
  refine hparent.trans (Ensures.of_ok (E := fun _ => True) ?_ h)
  cases ok with
  | true => exact .setSlot _ _ _
  | false => exact spares_bind fun _ => Spares.setSlot _ _ _

/-- An operation about `q` ends in `setSlot q`; `fork` also marks the entries of the parent. -/
theorem step_spares {e : Event I} (he : e.target = some q) (h : step R s e = .ok s') :
    Spares q s s' := by
  cases e with
  | kalloc | kfree pg => cases he
  | fork i j =>
    cases he
    simp only [step, withProc] at h
    split at h
    · cases h
    next p hp =>
    split at h
    · exact forkCopy_spares (running_eq_some.mp hp).1 h
    · cases h
  | _ =>
    cases he
    refine Ensures.of_ok (E := fun _ => True) ?_ h
    simp only [step, withProc, withImage, allocproc, growproc, execBegin, execSegment, execLoad,
      execStack, execArg, execSwitch, execBad]
    repeat' first
      | exact Spares.setSlot s _ _
      | exact Spares.setKmem s _
      | trivial
      | refine spares_bind fun _ => ?_
      | split

theorem run_spares (hrun : (sys R I).Run s es s') (hes : ∀ e ∈ es, e.target = some q) :
    Spares q s s' := by
  induction hrun with
  | nil => exact .setKmem _ _
  | cons hstep _ ih =>
    have hrest := ih fun e he => hes e (List.mem_cons_of_mem _ he)
    exact (step_spares (hes _ List.mem_cons_self) hstep).trans hrest

/-! ## What the other processes read -/

theorem onProc_of_ne (V : I → SlotView) {i : I} (f : ProcView → ProcView) (hr : r ≠ i) :
    onProc V i f r = V r := by
  cases hi : V i with
  | unused | fresh => simp only [onProc, hi]
  | live p => simp only [onProc, hi, update_of_ne hr]

theorem load_spaceStep (V : I → SlotView) (ok : Bool) (n : ℕ) {e : Event I}
    (hr : e.target ≠ some r) (va : ℕ) :
    (spaceStep (fun m => m.shareTo n) ok V e r).space.load va = (V r).space.load va := by
  have hne : ∀ i, e.target = some i → r ≠ i := by
    intro i hi h
    rw [h] at hr
    exact hr hi
  cases e with
  | kalloc | kfree pg => rfl
  | fork i j => exact load_spaceStep_fork V ok n (hne j rfl) va
  | allocproc i =>
    cases ok with
    | false => rfl
    | true => rw [spaceStep, if_pos rfl, update_of_ne (hne i rfl)]
  | freeproc i => rw [spaceStep, update_of_ne (hne i rfl)]
  | growproc i | store i | copyout i | execBegin i | execSegment i | execLoad i | execStack i
  | execArg i | execSwitch i | execAbort i =>
    exact congrArg (fun x : SlotView => x.space.load va) (onProc_of_ne V _ (hne i rfl))

variable [Fintype I]

theorem load_step {e : Event I} (h : Inv R s) (hstep : step R s e = .ok s')
    (hr : e.target ≠ some r) (va : ℕ) : s'.load r va = s.load r va := by
  obtain ⟨hinv, n, ok, hview, -⟩ := (step_ensures h e).of_ok hstep
  rw [hinv.load_eq, h.load_eq, hview, load_spaceStep s.view ok n hr]

/-- Whatever the others do with their memory, a process reads what it read before, everywhere. -/
theorem memory_isolated (hs : (sys R I).Reachable s) (hrun : (sys R I).Run s es s')
    (hr : ∀ e ∈ es, e.target ≠ some r) (va : ℕ) : s'.load r va = s.load r va := by
  induction hrun with
  | nil => rfl
  | cons hstep _ ih =>
    rw [ih (hs.step hstep) fun e he => hr e (List.mem_cons_of_mem _ he)]
    exact load_step (reachable_inv hs) hstep (hr _ List.mem_cons_self) va

def childLife : List (Event (Fin 2)) :=
  [.allocproc 1, .fork 0 1, .store 1 5 7, .growproc 1 4096, .freeproc 1]

theorem run_childLife : ∃ s s' : State (Fin 2), (sys smallRam (Fin 2)).Reachable s ∧
    (sys smallRam (Fin 2)).Run s childLife s' ∧ s.slot 1 = .unused ∧ s'.slot 1 = .unused := by
  have hrun : ((boot smallRam (fun _ => ByteBlock.fill PGSIZE 0) 1 (0 : Fin 2) []).result.bind
      fun s => (TransSys.exec (fun s e => (step smallRam s e).result) s childLife).map fun s' =>
        decide (s.kmem.oom = false ∧ (s.slot 1).trapframes = [] ∧ (s'.slot 1).trapframes = [])) =
      some true := by decide +kernel
  obtain ⟨s, hs, hrun⟩ := Option.bind_eq_some_iff.mp hrun
  obtain ⟨s', hs', htest⟩ := Option.map_eq_some_iff.mp hrun
  obtain ⟨hoom, h1, h2⟩ := of_decide_eq_true htest
  have hunused : ∀ x : Slot, x.trapframes = [] → x = .unused := by
    intro x hx
    cases x <;> simp_all [Slot.trapframes]
  exact ⟨s, s', .init ⟨_, _, _, _, Outcome.result_eq_some.mp hs, hoom⟩,
    .of_exec (fun _ _ _ h => Outcome.result_eq_some.mp h) hs', hunused _ h1, hunused _ h2⟩

theorem memory_isolated_childLife : ∃ s s' : State (Fin 2),
    (sys smallRam (Fin 2)).Run s childLife s' ∧ ∀ va, s'.load 0 va = s.load 0 va := by
  obtain ⟨s, s', hs, hrun, -⟩ := run_childLife
  exact ⟨s, s', hrun, memory_isolated hs hrun (by decide)⟩

/-- A process that comes and goes leaves the free pages and the counts as they were. -/
theorem process_leaves_no_trace (hs : (sys R I).Reachable s) (hq : s.slot q = .unused)
    (hrun : (sys R I).Run s es s') (hes : ∀ e ∈ es, e.target = some q)
    (hq' : s'.slot q = .unused) :
    ∀ pg, R.Allocatable pg → s'.kmem.refCount pg = s.kmem.refCount pg ∧
      s'.kmem.freelist.count pg = s.kmem.freelist.count pg := by
  have hspares := run_spares hrun hes
  have h := reachable_inv hs
  have h' := reachable_inv (hs.run hrun)
  have huses : ∀ pg, uses s'.shares pg = uses s.shares pg := by
    intro pg
    simp only [State.shares, uses_add, uses_sum, hspares.kernel]
    congr 1
    apply Finset.sum_congr rfl
    intro r _
    by_cases hr : r = q
    · rw [hr, hq, hq']
    · exact hspares.uses r hr pg
  intro pg hpg
  rw [h'.exact.ref_eq pg hpg, h.exact.ref_eq pg hpg, h'.exact.free_count pg hpg,
    h.exact.free_count pg hpg, huses]
  exact ⟨rfl, rfl⟩

theorem process_leaves_no_trace_childLife : ∃ s s' : State (Fin 2),
    (sys smallRam (Fin 2)).Run s childLife s' ∧ s'.kmem.refCount 34 = s.kmem.refCount 34 := by
  obtain ⟨s, s', hs, hrun, h1, h2⟩ := run_childLife
  exact ⟨s, s', hrun, (process_leaves_no_trace hs h1 hrun (by decide) h2 34 (by decide)).1⟩

/-- No process maps a page table, a trapframe or another page of the kernel as its memory. -/
theorem kernel_pages_unmapped (hs : (sys R I).Reachable s) {pg : Ppn} (hpg : s.KernelOwns pg) :
    s.mappings pg = 0 := by
  have h := reachable_inv hs
  have hmem := h.mem_ownShares.mpr ⟨pg, hpg, rfl⟩
  have hpos : 0 < uses s.ownShares pg := uses_pos hmem
  have htotal := h.exact.sole_uses pg (by
    rw [State.shares_split]
    exact Multiset.mem_add.mpr (.inl hmem))
  rw [State.shares_split, uses_add, uses_userShares] at htotal
  omega

theorem kernel_pages_unmapped_trapframe : ∃ (s : State (Fin 2)) (p : Proc),
    s.slot 1 = .live p ∧ s.mappings p.trapframe = 0 := by
  have hrun : (runFrom smallRam (0 : Fin 2) [] (childLife.take 2)).map
      (fun s => s.check 1 fun _ _ => true) = some true := by decide +kernel
  obtain ⟨s, p, hs, hp, -⟩ := live_of_runFrom hrun
  exact ⟨s, p, hp, kernel_pages_unmapped hs (.inr ⟨1, .inl (by simp [hp, Slot.trapframes])⟩)⟩

end Xv6.Vm
