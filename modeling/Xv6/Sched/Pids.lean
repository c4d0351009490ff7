import Xv6.Sched.TreeInv

/-! # Pids

As long as the counter of pids does not wrap, pids are distinct, and a process is older than its
children, unless it is their adoptive parent `init`.
-/

namespace Xv6.Sched
set_option autoImplicit false
open Function (update update_self update_of_ne)

section
variable {H : Type} {b : Build} {s s' : State H}

/-- Pids are distinct, below the counter, and smaller for a parent than for its children. -/
structure Pids (s : State H) : Prop where
  lt : ∀ q, (s.mem.proc q).state ≠ .unused →
    0 < (s.mem.proc q).pid ∧ (s.mem.proc q).pid < s.mem.nextpid
  inj : ∀ q r, (s.mem.proc q).state ≠ .unused → (s.mem.proc r).state ≠ .unused →
    (s.mem.proc q).pid = (s.mem.proc r).pid → q = r
  older : ∀ q r, (s.mem.proc q).parent = some r →
    r = initproc ∨ (s.mem.proc r).pid < (s.mem.proc q).pid
  fork : ∀ p np, (s.thread p).core = some (.forkParent np) →
    (s.mem.proc p).pid < (s.mem.proc np).pid

theorem Pids.keep (hP : Pids s) (hpid : ∀ q, (s'.mem.proc q).pid = (s.mem.proc q).pid)
    (hunused : ∀ q, (s'.mem.proc q).state ≠ .unused → (s.mem.proc q).state ≠ .unused)
    (hnext : s.mem.nextpid ≤ s'.mem.nextpid)
    (hparent : ∀ q r, (s'.mem.proc q).parent = some r → r = initproc ∨
      (s.mem.proc q).parent = some r ∨ (s.thread r).core = some (.forkParent q))
    (hfork : ∀ p np, (s'.thread p).core = some (.forkParent np) →
      (s.thread p).core = some (.forkParent np)) : Pids s' := by
  refine ⟨?_, ?_, ?_, ?_⟩
  · intro q hq
    obtain ⟨hpos, hlt⟩ := hP.lt q (hunused q hq)
    rw [hpid]
    exact ⟨hpos, hlt.trans_le hnext⟩
  · intro q r hq hr heq
    rw [hpid, hpid] at heq
    exact hP.inj q r (hunused q hq) (hunused r hr) heq
  · intro q r hq
    rw [hpid, hpid]
    rcases hparent q r hq with hr | hr | hr
    · exact .inl hr
    · exact hP.older q r hr
    · exact .inr (hP.fork r q hr)
  · intro p np hp
    rw [hpid, hpid]
    exact hP.fork p np (hfork p np hp)

variable {p q : Slot} {h : H}

theorem Pids.set (hP : Pids s) {f : Proc → Proc} (hm : s'.mem = s.mem.set q f)
    (hpid : ∀ x, (f x).pid = x.pid) (hunused : (s.mem.proc q).state ≠ .unused)
    (hparent : ∀ r, (f (s.mem.proc q)).parent = some r → r = initproc ∨
      (s.mem.proc q).parent = some r ∨ (s.thread r).core = some (.forkParent q))
    (hfork : ∀ p np, (s'.thread p).core = some (.forkParent np) →
      (s.thread p).core = some (.forkParent np)) : Pids s' := by
  refine hP.keep ?_ ?_ (by rw [hm]; exact le_rfl) ?_ hfork
  · intro r
    by_cases hr : r = q
    · rw [hm, hr, Mem.set_proc_self, hpid]
    · rw [hm, Mem.set_proc_of_ne _ _ hr]
  · intro r hu
    by_cases hr : r = q
    · rwa [hr]
    · rwa [hm, Mem.set_proc_of_ne _ _ hr] at hu
  · intro c r hc
    by_cases hcq : c = q
    · rw [hm, hcq, Mem.set_proc_self] at hc
      rw [hcq]
      exact hparent r hc
    · rw [hm, Mem.set_proc_of_ne _ _ hcq] at hc
      exact .inr (.inl hc)

theorem forkParent_from {t : Thread} (ht : s'.thread = update s.thread p t)
    (hcore : ∀ np, t.core = some (.forkParent np) → (s.thread p).core = some (.forkParent np))
    (q np : Slot) (hq : (s'.thread q).core = some (.forkParent np)) :
    (s.thread q).core = some (.forkParent np) := by
  rw [ht] at hq
  by_cases hqp : q = p
  · rw [hqp, update_self] at hq
    rw [hqp]
    exact hcore np hq
  · rwa [update_of_ne hqp] at hq

theorem Pids.sameNode (hP : Pids s) (hm : ∀ q, SameNode (s.mem.proc q) (s'.mem.proc q))
    (hnext : s.mem.nextpid ≤ s'.mem.nextpid)
    (hfork : ∀ p np, (s'.thread p).core = some (.forkParent np) →
      (s.thread p).core = some (.forkParent np)) : Pids s' := by
  refine hP.keep (fun q => (hm q).pid) ?_ hnext ?_ hfork
  · intro q hq hu
    have hstage := (hm q).stage
    rw [hu] at hstage
    exact hq (ProcState.eq_of_stage hstage (by simp [ProcState.stage]))
  · intro q r hq
    exact .inr (.inl ((hm q).parent ▸ hq))

theorem Pids.alloc (hP : Pids s) (hT : Tree s) (hq : (s.mem.proc q).state = .unused)
    (hp : (s.mem.proc p).state = .running) (hm : s'.mem = allocOne p q s.mem)
    (ht : s'.thread = update (update s.thread q (.resume .forkret)) p (.at (.forkParent q)))
    (hbound : s.mem.nextpid < 2 ^ 32) : Pids s' := by
  have hpq : p ≠ q := by
    rintro rfl
    exact absurd (hp.symm.trans hq) (by simp)
  have hother : ∀ r, r ≠ q → s'.mem.proc r = s.mem.proc r := by
    intro r hr
    simp [hm, allocOne, hr]
  have hpid : (s'.mem.proc q).pid = s.mem.nextpid := by
    rw [hm]
    simp only [allocOne, Mem.set_proc_self]
    exact Nat.mod_eq_of_lt hbound
  have hnext : s'.mem.nextpid = s.mem.nextpid + 1 := by rw [hm]; rfl
  have hlt : ∀ r, r ≠ q → (s'.mem.proc r).state ≠ .unused →
      0 < (s.mem.proc r).pid ∧ (s.mem.proc r).pid < s.mem.nextpid := by
    intro r hr hu
    rw [hother r hr] at hu
    exact hP.lt r hu
  have hpos : 0 < s.mem.nextpid := by
    have := hP.lt p (by simp [hp])
    omega
  refine ⟨?_, ?_, ?_, ?_⟩
  · intro r hu
    rw [hnext]
    by_cases hr : r = q
    · rw [hr, hpid]
      omega
    · have := hlt r hr hu
      rw [hother r hr]
      omega
  · intro r r' hu hu' heq
    by_cases hr : r = q <;> by_cases hr' : r' = q
    · rw [hr, hr']
    · rw [hr, hpid, hother r' hr'] at heq
      have := hlt r' hr' hu'
      omega
    · rw [hr', hpid, hother r hr] at heq
      have := hlt r hr hu
      omega
    · rw [hother r hr] at hu heq
      rw [hother r' hr'] at hu' heq
      exact hP.inj r r' hu hu' heq
  · intro c r hc
    have hc' : (s.mem.proc c).parent = some r := by
      by_cases hcq : c = q
      · simpa [hm, allocOne, hcq] using hc
      · rwa [hother c hcq] at hc
    have hcq : c ≠ q := by
      rintro rfl
      rw [(hT.empty c hq).2.1] at hc'
      cases hc'
    have hrq : r ≠ q := by
      rintro rfl
      have hst := hT.parent c r hc'
      rw [hq] at hst
      cases hst
    rw [hother c hcq, hother r hrq]
    exact hP.older c r hc'
  · intro r np hr
    rw [ht] at hr
    by_cases hrp : r = p
    · rw [hrp, update_self] at hr
      obtain rfl : q = np := by simpa [Thread.core, Pc.core] using hr
      rw [hrp, hother p hpq, hpid]
      exact (hP.lt p (by simp [hp])).2
    · rw [update_of_ne hrp] at hr
      by_cases hrq : r = q
      · rw [hrq, update_self] at hr
        cases hr
      · rw [update_of_ne hrq] at hr
        have hfork := hP.fork r np hr
        by_cases hnp : np = q
        · -- the unused slot has pid 0
          rw [hnp, (hT.empty q hq).1] at hfork
          omega
        · rw [hother r hrq, hother np hnp]
          exact hfork

theorem Pids.reap (hP : Pids s) (hT : Tree s) (hI : Inv b s) (hz : (s.mem.proc q).state = .zombie)
    (hm : s'.mem = freeproc q s.mem) (ht : s'.thread = update s.thread p (.at .user)) :
    Pids s' := by
  have hother : ∀ r, r ≠ q → s'.mem.proc r = s.mem.proc r := by
    intro r hr
    rw [hm, freeproc, Mem.set_proc_of_ne _ _ hr]
  have hnext : s'.mem.nextpid = s.mem.nextpid := by rw [hm]; rfl
  have hne : ∀ r, (s'.mem.proc r).state ≠ .unused → r ≠ q := by
    rintro r hu rfl
    exact hu (by rw [hm, freeproc, Mem.set_proc_self])
  refine ⟨?_, ?_, ?_, ?_⟩
  · intro r hu
    have hr := hother r (hne r hu)
    rw [hr] at hu ⊢
    rw [hnext]
    exact hP.lt r hu
  · intro r r' hu hu' heq
    have hr := hother r (hne r hu)
    have hr' := hother r' (hne r' hu')
    rw [hr] at hu heq
    rw [hr'] at hu' heq
    exact hP.inj r r' hu hu' heq
  · intro c r hc
    have hcq : c ≠ q := by
      rintro rfl
      rw [hm, freeproc, Mem.set_proc_self] at hc
      cases hc
    rw [hother c hcq] at hc
    have hrq : r ≠ q := by
      rintro rfl
      have hst := hT.parent c r hc
      rw [hz] at hst
      cases hst
    rw [hother c hcq, hother r hrq]
    exact hP.older c r hc
  · intro r np hr
    have hr := forkParent_from ht (fun _ h => by cases h) r np hr
    have hrq : r ≠ q := by
      rintro rfl
      have hst := (hT.place r _ hr).1
      rw [hz] at hst
      cases hst
    have hnp : np ≠ q := by
      rintro rfl
      have hused := (hI.child r np (Thread.child_of_core hr rfl)).1
      exact absurd (hz.symm.trans hused) (by simp)
    rw [hother r hrq, hother np hnp]
    exact hP.fork r np hr

theorem Pids.threadEffect (hP : Pids s) (hT : Tree s) (hI : Inv b s) (hr : s.run h = some p)
    (he : ThreadEffect s p s') (hbound : s.mem.nextpid < 2 ^ 32) : Pids s' := by
  have hsame : s'.mem = s.mem → (∀ q np, (s'.thread q).core = some (.forkParent np) →
      (s.thread q).core = some (.forkParent np)) → Pids s' := by
    intro hm hfork
    refine hP.sameNode ?_ (by rw [hm]) hfork
    intro q
    rw [hm]
    exact ⟨rfl, rfl, rfl, rfl, rfl⟩
  cases he with
  | move t hm ht hcore =>
    refine hP.sameNode (fun q => (hm.proc q).sameNode) (le_of_eq hm.nextpid.symm)
      (forkParent_from ht ?_)
    intro np hnp
    exact hcore ▸ hnp
  | forkAlloc q hp hq hm ht => exact hP.alloc hT hq (hI.running_at hr hp) hm ht hbound
  | forkFail q hp hq hm ht =>
    refine hP.sameNode ?_ ?_ (forkParent_from ht fun np h => by cases h)
    · rw [hm]
      exact hT.allocFail_sameNode hq
    · rw [hm]
      exact Nat.le_succ _
  | forkParent np hp hm ht =>
    obtain ⟨hused, -⟩ := hI.child p np (by rw [hp]; rfl)
    refine hP.set hm (fun _ => rfl) (by simp [hused]) ?_ (forkParent_from ht fun _ h => by cases h)
    intro r hr
    cases hr
    exact .inr (.inr (by rw [hp]; rfl))
  | forkReady np hp hm ht =>
    obtain ⟨hused, -⟩ := hI.child p np (by rw [hp]; rfl)
    exact hP.set hm (fun _ => rfl) (by simp [hused]) (fun r hr => .inr (.inl hr))
      (forkParent_from ht fun _ h => by cases h)
  | exit status hp hinit hm ht | waitEnter x pc hp hcore hm ht | waitNext x hk hk' q hp hq hm ht
  | waitLeave x hk i hp hm ht | waitFull x hk i hp hi hm ht =>
    exact hsame hm (forkParent_from ht fun _ h => by cases h)
  | reparent status q hp hq hm ht =>
    have hunused : (s.mem.proc q).state ≠ .unused := by
      intro hu
      rw [(hT.empty q hu).2.1] at hq
      cases hq
    exact hP.set hm (fun _ => rfl) hunused (fun r hr => .inl (Option.some.inj hr).symm)
      (forkParent_from ht fun _ h => by cases h)
  | reparentSkip status q hp hq hm ht | reparentEnd status i chan hp hi hchan hm ht =>
    exact hsame hm (forkParent_from ht fun _ h => by cases h)
  | wake chan ret q hp hm hq ht =>
    refine hP.sameNode (fun q => (hm.proc q).sameNode) (le_of_eq hm.nextpid.symm)
      (forkParent_from ht fun _ h => by cases ret <;> cases h)
  | wakeEnd chan ret i hp hi hm ht =>
    exact hsame hm (forkParent_from ht fun _ h => by cases ret <;> cases h)
  | exitLast status hp hm ht | sleep x hp hm ht =>
    exact hP.set hm (fun _ => rfl) (by simp [hI.running_at hr hp]) (fun r hr => .inr (.inl hr))
      (forkParent_from ht fun _ h => by cases h)
  | reap x hk q hp hq hz hm ht => exact hP.reap hT hI hz hm ht

theorem boot_pids : Pids (boot b H) := by
  have hstate : ∀ q, ((boot b H).mem.proc q).state ≠ .unused → q = initproc := by
    intro q hq
    rw [boot_state] at hq
    by_contra hne
    simp [hne] at hq
  refine ⟨?_, ?_, ?_, ?_⟩
  · intro q hq
    rw [hstate q hq]
    simp [boot, bootMem]
  · intro q r hq hr _
    rw [hstate q hq, hstate r hr]
  · intro q r hq
    exact absurd hq (by rw [boot_parent]; simp)
  · intro p np hp
    rw [boot_thread] at hp
    split at hp <;> cases hp

variable [DecidableEq H]

theorem Effect.nextpid_le (he : Effect h s s') : s.mem.nextpid ≤ s'.mem.nextpid := by
  have hsame : s'.mem = s.mem → s.mem.nextpid ≤ s'.mem.nextpid := by
    intro hm
    rw [hm]
  cases he with
  | calm hm ht hr => exact le_of_eq hm.nextpid.symm
  | swtchIn p hr hm ht hr' => exact hsame hm
  | swtchOut p ret hr hp hm ht hr' => exact hsame hm
  | thread p hr hr' he =>
    cases he with
    | move t hm ht hcore | wake chan ret q hp hm hq ht => exact le_of_eq hm.nextpid.symm
    | forkAlloc q hp hq hm ht | forkFail q hp hq hm ht =>
      rw [hm]
      exact Nat.le_succ _
    | forkParent np hp hm ht | forkReady np hp hm ht | reparent status q hp hq hm ht
    | exitLast status hp hm ht | reap x hk q hp hq hz hm ht | sleep x hp hm ht =>
      rw [hm]
      exact le_rfl
    | exit status hp hinit hm ht | reparentSkip status q hp hq hm ht
    | reparentEnd status i chan hp hi hchan hm ht | wakeEnd chan ret i hp hi hm ht
    | waitEnter x pc hp hcore hm ht | waitNext x hk hk' q hp hq hm ht | waitLeave x hk i hp hm ht
    | waitFull x hk i hp hi hm ht =>
      exact hsame hm

theorem Pids.effect (hP : Pids s) (hT : Tree s) (hI : Inv b s) (he : Effect h s s')
    (hbound : s.mem.nextpid < 2 ^ 32) : Pids s' := by
  have hnext := he.nextpid_le
  cases he with
  | calm hm ht hr =>
    refine hP.sameNode (fun q => (hm.proc q).sameNode) hnext ?_
    intro p np hp
    rwa [ht] at hp
  | swtchIn p hr hm ht hr' =>
    refine hP.sameNode (fun q => by rw [hm]; exact ⟨rfl, rfl, rfl, rfl, rfl⟩) hnext ?_
    intro q np hq
    rwa [ht] at hq
  | swtchOut p ret hr hp hm ht hr' =>
    refine hP.sameNode (fun q => by rw [hm]; exact ⟨rfl, rfl, rfl, rfl, rfl⟩) hnext
      (forkParent_from ht ?_)
    intro np hnp
    rw [hp]
    exact hnp
  | thread p hr hr' he => exact hP.threadEffect hT hI hr he hbound

end
end Xv6.Sched
