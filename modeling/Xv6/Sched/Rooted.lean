import Mathlib.Data.Fintype.Basic
import Xv6.Sched.Pids

/-! # The process table is a tree rooted at `init`

Following the parents from any process that has not been freed ends at `init`.
-/

namespace Xv6.Sched
set_option autoImplicit false

section
variable {H : Type} [DecidableEq H] {b : Build} {s : State H}

theorem tree_of_run (hs : ((sys b H).restrict Fresh).Reachable s) :
    Inv b s ∧ Tree s ∧ (s.mem.nextpid < 2 ^ 31 → Pids s) := by
  refine hs.invariant (I := fun s => Inv b s ∧ Tree s ∧ (s.mem.nextpid < 2 ^ 31 → Pids s)) ?_ ?_
  · rintro _ rfl
    exact ⟨boot_inv, boot_tree, fun _ => boot_pids⟩
  · rintro s e s' ⟨hI, hT, hP⟩ ⟨hfresh, hstep⟩
    have he := (step_effect hI e).of_ok hstep
    refine ⟨(step_ensures hI e hfresh).of_ok hstep, hT.effect hI he, ?_⟩
    intro hbound
    have hbound' : s.mem.nextpid < 2 ^ 31 := he.nextpid_le.trans_lt hbound
    exact (hP hbound').effect hT hI he (hbound'.trans (by omega))

theorem fresh_of_reachable (hb : b ≠ .mlfq) (hs : (sys b H).Reachable s) :
    ((sys b H).restrict Fresh).Reachable s := by
  induction hs with
  | init h0 => exact .init h0
  | step hs hstep ih => exact ih.step ⟨(inv_of_reachable hb hs).fresh hb _, hstep⟩

omit [DecidableEq H] in
/-- Following the parents from a process that is not freed yet leads to `init`. -/
theorem Tree.rooted (hT : Tree s) (hP : Pids s) (q : Slot) (hq : (s.mem.proc q).state.born) :
    Relation.ReflTransGen (fun a c => (s.mem.proc a).parent = some c) q initproc := by
  -- by induction on the pid: a parent other than `init` is older
  generalize hn : (s.mem.proc q).pid = n
  induction n using Nat.strong_induction_on generalizing q with
  | _ n ih =>
    by_cases hinit : q = initproc
    · rw [hinit]
    · obtain ⟨r, hr⟩ := Option.ne_none_iff_exists'.mp (hT.child q hinit hq)
      refine Relation.ReflTransGen.head hr ?_
      rcases hP.older q r hr with hroot | hlt
      · rw [hroot]
      · exact ih _ (hn ▸ hlt) r (.inl (hT.parent q r hr)) rfl

/-- The process table, as long as fewer than `2^31 - 1` pids have been handed out (the first one to
`init`): an unused slot is empty; pids are distinct; the parent of a process other than `init` that
has been started and not freed is neither unused nor a zombie, and the parents lead to `init`. -/
theorem process_table (hs : ((sys b H).restrict Fresh).Reachable s)
    (hpid : s.mem.nextpid - 1 < 2 ^ 31 - 1) :
    (∀ q, (s.mem.proc q).state = .unused → (s.mem.proc q).pid = 0 ∧ (s.mem.proc q).parent = none ∧
      (s.mem.proc q).pagetable = false ∧ (s.mem.proc q).trapframe = false) ∧
    (∀ q r, (s.mem.proc q).state ≠ .unused → (s.mem.proc r).state ≠ .unused → q ≠ r →
      (s.mem.proc q).pid ≠ (s.mem.proc r).pid) ∧
    (∀ q, q ≠ initproc →
      (s.mem.proc q).state ∈ [ProcState.sleeping, .runnable, .running, .zombie] →
      (∃ r, (s.mem.proc q).parent = some r ∧ (s.mem.proc r).state ≠ .unused ∧
        (s.mem.proc r).state ≠ .zombie) ∧
      Relation.ReflTransGen (fun a c => (s.mem.proc a).parent = some c) q initproc) := by
  obtain ⟨-, hT, hP⟩ := tree_of_run hs
  have hP := hP (by omega)
  refine ⟨hT.empty, fun q r hq hr hne heq => hne (hP.inj q r hq hr heq), ?_⟩
  intro q hinit hq
  have hborn : (s.mem.proc q).state.born := by
    generalize (s.mem.proc q).state = st at hq
    cases st <;> simp_all [ProcState.born, ProcState.stage]
  obtain ⟨r, hr⟩ := Option.ne_none_iff_exists'.mp (hT.child q hinit hborn)
  have hlive := hT.parent q r hr
  refine ⟨⟨r, hr, ?_, ?_⟩, hT.rooted hP q hborn⟩
  · intro hu
    rw [hu] at hlive
    cases hlive
  · intro hz
    rw [hz] at hlive
    cases hlive

end

def secondSlot : Slot := ⟨1, one_lt_NPROC⟩

def firstFork : List (Event (Fin 1)) :=
  [.sched 0 0, .sched 0 0, .go 0 true, .call 0 .fork, .go 0 true, .go 0 true, .go 0 true,
    .go 0 true]

theorem process_table_firstFork : ∃ s : State (Fin 1),
    ((sys .rr (Fin 1)).restrict Fresh).Reachable s ∧ (s.mem.proc secondSlot).state = .runnable ∧
    (s.mem.proc secondSlot).pid ≠ (s.mem.proc initproc).pid ∧
    Relation.ReflTransGen (fun a c => (s.mem.proc a).parent = some c) secondSlot initproc := by
  have hrun : ((TransSys.exec (stepOk .rr) (boot .rr (Fin 1)) firstFork).map fun s =>
      ((s.mem.proc secondSlot).state, (s.mem.proc initproc).state, s.mem.nextpid)) =
      some (.runnable, .running, 3) := by decide +kernel
  obtain ⟨s, hs, h⟩ := Option.map_eq_some_iff.mp hrun
  simp only [Prod.mk.injEq] at h
  have hreach := fresh_of_reachable (by decide) (reachable_of_exec hs)
  obtain ⟨-, hpids, htree⟩ := process_table hreach (by rw [h.2.2]; omega)
  refine ⟨s, hreach, h.1, ?_, ?_⟩
  · exact hpids secondSlot initproc (by simp [h.1]) (by simp [h.2.1]) (by decide)
  · exact (htree secondSlot (by decide) (by simp [h.1])).2

end Xv6.Sched
