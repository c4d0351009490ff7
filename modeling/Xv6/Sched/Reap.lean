import Xv6.Sched.Wait

/-! # Every step keeps the promises of `wait`

Every step keeps `WaitInv`, so while `wait_lock` is free a process asleep in `wait` has no zombie
child.
-/

namespace Xv6.Sched
set_option autoImplicit false
open Function (update update_self update_of_ne)

section
variable {H : Type} {b : Build} {s s' : State H}

theorem WaitInv.threadEffect (hW : WaitInv s) (hI : Inv b s) (hT : Tree s) {h : H} {p : Slot}
    (hr : s.run h = some p) (he : ThreadEffect s p s') : WaitInv s' := by
  have hsame : s'.mem = s.mem → WaitCalm s.mem s'.mem := by
    intro hm
    rw [hm]
    exact (Calm.refl _).waitCalm
  cases he with
  | move t hm ht hcore =>
    refine hW.keep hT hm.waitCalm ?_ ?_
    · intro q pc hq
      left
      by_cases hqp : q = p
      · rw [ht, hqp, update_self, hcore] at hq
        rwa [hqp]
      · rwa [ht, update_of_ne hqp] at hq
    · rintro q i ⟨status, j, hq⟩ hi _
      refine ⟨q, i, ⟨status, j, ?_⟩, hi⟩
      by_cases hqp : q = p
      · rw [hqp] at hq
        rw [ht, hqp, update_self, hcore, hq]
      · rw [ht, update_of_ne hqp, hq]
  | forkAlloc q hp hq hm ht =>
    have hcalm : WaitCalm s.mem s'.mem := by
      refine .set (q := q) ?_ ?_ ?_ ?_
      · intro r hrq
        simp [hm, allocOne, hrq]
      · simp [hm, allocOne]
      · simp [hm, allocOne]
      · simp [hq, ProcState.stage]
    have hnew : (update s.thread q (.resume .forkret) p).core = none := by
      by_cases hpq : p = q
      · rw [hpq, update_self]
        rfl
      · rw [update_of_ne hpq, hp]
        rfl
    refine hW.keep hT hcalm ?_ ?_
    · intro r pc hrc
      rw [ht] at hrc
      by_cases hrp : r = p
      · rw [hrp, update_self] at hrc
        cases hrc
        exact .inr trivial
      · rw [update_of_ne hrp] at hrc
        by_cases hrq : r = q
        · rw [hrq, update_self] at hrc
          cases hrc
        · rw [update_of_ne hrq] at hrc
          exact .inl hrc
    · rintro r i ⟨status, j, hrc⟩ hi _
      have hrp : r ≠ p := by
        rintro rfl
        rw [hp] at hrc
        cases hrc
      have hrq : r ≠ q := by
        rintro rfl
        have hst := (hT.place r _ hrc).1
        rw [hq] at hst
        cases hst
      exact ⟨r, i, ⟨status, j, by rw [ht, update_of_ne hrp, update_of_ne hrq,
        hrc]⟩, hi⟩
  | forkFail q hp hq hm ht =>
    refine hW.move hT ?_ ht (fun pc hpc => by cases hpc) (not_wakingInit hp (by simp [Pc.core]))
    refine .set (q := q) ?_ ?_ ?_ ?_
    · intro r hrq
      simp [hm, allocFail, freeproc, allocOne, hrq]
    · simp [hm, allocFail, freeproc]
    · simp [hm, allocFail, freeproc]
    · simp [hq, ProcState.stage]
  | forkParent np hp hm ht =>
    obtain ⟨hused, -⟩ := hI.child p np (by rw [hp]; rfl)
    refine hW.move hT ?_ ht (fun pc hpc => .inr ?_) (not_wakingInit hp (by simp [Pc.core]))
    · refine .set (q := np) ?_ ?_ ?_ ?_
      · intro r hrn
        rw [hm, Mem.set_proc_of_ne _ _ hrn]
      · simp [hm, hused]
      · simp [hm, hused]
      · simp [hused, ProcState.stage]
    · cases hpc
      trivial
  | forkReady np hp hm ht =>
    obtain ⟨hused, -⟩ := hI.child p np (by rw [hp]; rfl)
    refine hW.move hT ?_ ht (fun pc hpc => by cases hpc) (not_wakingInit hp (by simp [Pc.core]))
    refine .set (q := np) ?_ ?_ ?_ ?_
    · intro r hrn
      rw [hm, Mem.setState_of_ne _ _ hrn]
    · simp [hm]
    · simp [hm]
    · simp [hused, ProcState.stage]
  | exit status hp hinit hm ht =>
    refine hW.move hT (hsame hm) ht (fun pc hpc => .inr ?_) (not_wakingInit hp (by simp [Pc.core]))
    cases hpc
    trivial
  | reparent status q hp hq hm ht => exact hW.reparent hI hT hp hm ht
  | reparentSkip status q hp hq hm ht =>
    refine hW.move hT (hsame hm) ht (fun pc hpc => .inr ?_) (not_wakingInit hp (by simp [Pc.core]))
    cases hpc
    trivial
  | reparentEnd status i chan hp hi hchan hm ht =>
    refine hW.move hT (hsame hm) ht (fun pc hpc => .inr ?_) (not_wakingInit hp (by simp [Pc.core]))
    cases hpc
    intro q hq
    rw [hm] at hq
    exact ⟨hchan q hq, fun _ => Nat.zero_le _⟩
  | wake chan ret q hp hm hq ht => exact hW.wake hT hp hm hq ht
  | wakeEnd chan ret i hp hi hm ht =>
    refine hW.keep hT (hsame hm) ?_ ?_
    · intro q pc hq
      by_cases hqp : q = p
      · right
        rw [ht, hqp, update_self] at hq
        rw [hqp]
        cases ret with
        | user | locked => cases hq
        | reparent status j =>
          cases hq
          trivial
        | exit status =>
          cases hq
          have hplace := hW.place p (.wakeup chan i (.exit status)) (by rw [hp]; rfl)
          rw [hm]
          intro q hq hs
          have hle := (hplace q hq).2 hs
          have hlt := q.isLt
          omega
      · rw [ht, update_of_ne hqp] at hq
        exact .inl hq
    · rintro q j ⟨status, k, hq⟩ hj _
      by_cases hqp : q = p
      · rw [hqp, hp] at hq
        cases ret with
        | user | locked | exit => cases hq
        | reparent status' k' =>
          obtain rfl : i = j := by
            simp only [Thread.core, Pc.core, Option.some.injEq, Pc.wakeup.injEq] at hq
            exact hq.2.1
          have hlt := initproc.isLt
          omega
      · exact ⟨q, j, ⟨status, k, by rw [ht, update_of_ne hqp, hq]⟩, hj⟩
  | exitLast status hp hm ht => exact hW.exitLast hI hT hp hm ht
  | waitEnter x pc hp hcore hm ht =>
    refine hW.move hT (hsame hm) ht (fun pc' hpc => .inr ?_) ?_
    · cases hpc
      intro c hc
      omega
    · exact not_wakingInit hp (by simp [hcore])
  | waitNext x hk hk' q hp hq hm ht =>
    refine hW.move hT (hsame hm) ht (fun pc hpc => .inr ?_) (not_wakingInit hp (by simp [Pc.core]))
    cases hpc
    have hplace := hW.place p (.waitScan x q.val hk) (by rw [hp]; rfl)
    rw [hm]
    intro c hc hpar
    by_cases hcq : c = q
    · rw [hcq] at hpar ⊢
      exact hq hpar
    · have hne : c.val ≠ q.val := fun heq => hcq (Fin.ext heq)
      exact hplace c (by omega) hpar
  | reap x hk q hp hq hz hm ht =>
    refine hW.move hT ?_ ht (fun pc hpc => by cases hpc) (not_wakingInit hp (by simp [Pc.core]))
    refine .set (q := q) ?_ ?_ ?_ ?_
    · intro r hrq
      rw [hm, freeproc, Mem.set_proc_of_ne _ _ hrq]
    · simp [hm, freeproc]
    · simp [hm, freeproc]
    · simp [hz, ProcState.stage]
  | waitLeave x hk i hp hm ht =>
    exact hW.move hT (hsame hm) ht (fun pc hpc => by cases hpc)
      (not_wakingInit hp (by simp [Pc.core]))
  | waitFull x hk i hp hi hm ht =>
    refine hW.move hT (hsame hm) ht (fun pc hpc => .inr ?_) (not_wakingInit hp (by simp [Pc.core]))
    cases hpc
    have hplace := hW.place p (.waitScan x i hk) (by rw [hp]; rfl)
    rw [hm]
    intro c hpar
    exact hplace c (c.isLt.trans_le hi) hpar
  | sleep x hp hm ht => exact hW.sleep hI hT hp hm ht

theorem boot_waitInv : WaitInv (boot b H) := by
  have hawake : ∀ q r, ¬ (boot b H).mem.SleepsOn q r := by
    rintro q r ⟨hs, -⟩
    rw [boot_state] at hs
    split at hs <;> cases hs
  refine ⟨fun q r hs => absurd hs (hawake q r), fun q c hs => absurd hs (hawake q q), ?_⟩
  intro p pc hp
  rw [boot_thread] at hp
  split at hp <;> cases hp

variable [DecidableEq H]

theorem WaitInv.effect {h : H} (hW : WaitInv s) (hI : Inv b s) (hT : Tree s)
    (he : Effect h s s') : WaitInv s' := by
  have hkeep : WaitCalm s.mem s'.mem → (∀ q, (s'.thread q).core = (s.thread q).core) →
      WaitInv s' := by
    intro hm hcore
    refine hW.keep hT hm (fun q pc hq => .inl (hcore q ▸ hq)) ?_
    rintro q i ⟨status, j, hq⟩ hi _
    exact ⟨q, i, ⟨status, j, (hcore q).trans hq⟩, hi⟩
  cases he with
  | calm hm ht hr => exact hkeep hm.waitCalm fun q => by rw [ht]
  | swtchIn p hr hm ht hr' =>
    exact hkeep (by rw [hm]; exact (Calm.refl _).waitCalm) fun q => by rw [ht]
  | swtchOut p ret hr hp hm ht hr' =>
    refine hkeep (by rw [hm]; exact (Calm.refl _).waitCalm) fun q => ?_
    by_cases hq : q = p
    · rw [ht, hq, update_self, hp]
      rfl
    · rw [ht, update_of_ne hq]
  | thread p hr hr' he => exact hW.threadEffect hI hT hr he

theorem waitInv_of_run (hs : ((sys b H).restrict Fresh).Reachable s) : WaitInv s := by
  induction hs with
  | init h0 =>
    rw [show _ = _ from h0]
    exact boot_waitInv
  | step hs hstep ih =>
    obtain ⟨hI, hT, -⟩ := tree_of_run hs
    exact ih.effect hI hT ((step_effect hI _).of_ok hstep.2)

omit [DecidableEq H] in
theorem WaitInv.no_zombie_child (hW : WaitInv s) (hI : Inv b s) (hT : Tree s)
    (hfree : s.locks .wait = none) {q c : Slot} (hs : s.mem.SleepsOn q q)
    (hc : s.mem.parent c = some q) : (s.mem.proc c).state ≠ .zombie := by
  intro hz
  obtain ⟨-, p, i, ⟨status, j, hcore⟩, -⟩ := hW.lost q c hs hc hz
  obtain ⟨h, -, hheld⟩ := wait_lock_held hI hT hcore rfl
  exact absurd (hfree.symm.trans hheld) (by simp)

end
end Xv6.Sched
