import Xv6.Task.Inv
import Xv6.Vm.ForkUndo

/-! # A failed `fork`

Whether the process table is full, or memory runs out for the trapframe, for a page of the new page
table, or while the pages of the parent are shared: a `fork` that returns -1 leaves the free pages,
all reference counts, the other processes and everything that can be read as they were. Only entries
of the parent may be marked copy-on-write.
-/

namespace Xv6.Task
set_option autoImplicit false
open Xv6.Sched (Slot initproc)

/-- Nothing is left of a call of process `p` but marks in its page table and, in the slot that was
tried, fields of a process that does not exist. -/
structure NoTrace (p : Slot) (s s' : State) : Prop where
  memory : Vm.NoTrace s.vm s'.vm
  tables : ∃ x pt, s.vm.slot p = .live x ∧ Vm.Marked x.pt pt ∧
    s'.vm.slot = Function.update s.vm.slot p (.live { x with pt := pt })
  procs : ∃ tried : Option Slot,
    (∀ q ∈ tried, (s.mem.proc q).state = .unused ∧ (s'.mem.proc q).state = .unused) ∧
      ∀ q, q ∉ tried → s'.mem.proc q = s.mem.proc q ∧ s'.extra q = s.extra q
  file : s'.file = s.file
  inode : s'.inode = s.inode

section
variable {R : Vm.Ram} {s s' : State} {p q : Slot}

theorem freeFields_of_ne {r : Slot} (hr : r ≠ q) :
    (freeFields q s).mem.proc r = s.mem.proc r ∧ (freeFields q s).extra r = s.extra r := by
  simp [freeFields, Sched.freeproc, hr]

theorem tried_slot (hq : findUnused s.mem = some q)
    (hproc : ∀ r, r ≠ q → s'.mem.proc r = s.mem.proc r ∧ s'.extra r = s.extra r) :
    ∃ tried : Option Slot, (∀ r ∈ tried, (s.mem.proc r).state = .unused ∧
        ((freeFields q s').mem.proc r).state = .unused) ∧
      ∀ r, r ∉ tried → (freeFields q s').mem.proc r = s.mem.proc r ∧
        (freeFields q s').extra r = s.extra r := by
  refine ⟨some q, ?_, ?_⟩
  · intro r hr
    cases hr
    exact ⟨findUnused_some hq, by simp [freeFields, Sched.freeproc]⟩
  · intro r hr
    have hne : r ≠ q := by
      rintro rfl
      exact hr rfl
    obtain ⟨hp, he⟩ := freeFields_of_ne hne
    obtain ⟨hp', he'⟩ := hproc r hne
    exact ⟨hp.trans hp', he.trans he'⟩

theorem unmarked {x : Vm.Proc} (hx : s.vm.running p = some x) {vm : Vm.State Slot}
    (hslot : vm.slot = s.vm.slot) : ∃ x pt, s.vm.slot p = .live x ∧ Vm.Marked x.pt pt ∧
      vm.slot = Function.update s.vm.slot p (.live { x with pt := pt }) := by
  obtain ⟨hx, -⟩ := Vm.running_eq_some.mp hx
  refine ⟨x, x.pt, hx, .refl _, ?_⟩
  rw [hslot, ← hx, Function.update_eq_self]

theorem failed_fork_leaves_no_trace (hs : (sys R).Reachable s)
    (h : fork R p s = .ok (none, s')) : NoTrace p s s' := by
  have hinv := reachable_inv hs
  have hvm := Vm.reachable_inv hinv.vm
  obtain ⟨x, hx⟩ : ∃ x, s.vm.running p = some x := by
    unfold fork at h
    split at h
    · cases h
    · exact ⟨_, ‹_›⟩
  generalize hr : (none : Option ℕ) = r at h
  cases fork_forked hinv.kinds h with
  | full hfull =>
    exact ⟨⟨.refl _, rfl, fun _ _ => rfl⟩, unmarked hx rfl,
      ⟨none, by simp, fun _ _ => ⟨rfl, rfl⟩⟩, rfl, rfl⟩
  | noMemory q vm hq halloc hslot =>
    refine ⟨Vm.allocproc_undone hvm (hinv.unused_slot hq) halloc hslot, unmarked hx hslot,
      tried_slot hq ?_, rfl, rfl⟩
    intro r hr
    simp [allocBegin, State.setExtra, hr]
  | noCopy q x y vm vm' hq hx halloc hslot hcopy hslot' =>
    obtain ⟨hnone, pt, hpt, hmarked⟩ :=
      Vm.fork_undone hvm (hinv.unused_slot hq) hx halloc hslot hcopy hslot'
    refine ⟨hnone, ⟨x, pt, (Vm.running_eq_some.mp hx).1, hmarked, hpt⟩, tried_slot hq ?_, rfl, rfl⟩
    intro r hr
    refine ⟨allocated_of_ne vm hr, ?_⟩
    simp [allocated, allocEnd, allocBegin, State.setMem, State.setExtra, hr]
  | child => cases hr

end

/-- With one page too few for the page table of the child, `fork` fails after it has marked page 0
of the parent. -/
theorem failed_fork_leaves_no_trace_first : ∃ s s' : State,
    (sys ⟨8, 21, 3, by decide⟩).Reachable s ∧
    fork ⟨8, 21, 3, by decide⟩ initproc s = .ok (none, s') ∧
      NoTrace initproc s s' := by
  have hrun : (runFrom ⟨8, 21, 3, by decide⟩ [dispatch initproc]).bind (fun s =>
      (fork ⟨8, 21, 3, by decide⟩ initproc s).result.map (·.1)) = some none := by decide +kernel
  obtain ⟨s, hs, hfork⟩ := Option.bind_eq_some_iff.mp hrun
  obtain ⟨⟨r, s'⟩, hres, hr⟩ := Option.map_eq_some_iff.mp hfork
  obtain rfl : r = none := hr
  have hreach := reachable_of_runFrom hs
  have hfork := Outcome.result_eq_some.mp hres
  exact ⟨s, s', hreach, hfork, failed_fork_leaves_no_trace hreach hfork⟩

end Xv6.Task
