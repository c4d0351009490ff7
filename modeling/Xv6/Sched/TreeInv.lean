import Xv6.Sched.Tree

/-! # Every step keeps the process tree -/

namespace Xv6.Sched
set_option autoImplicit false

section
variable {H : Type} {b : Build} {s s' : State H}

theorem Tree.threadEffect (hT : Tree s) (hI : Inv b s) (hP : Placed s') {h : H} {p : Slot}
    (hr : s.run h = some p) (he : ThreadEffect s p s') : Tree s' := by
  have hlive : ∀ {pc : Pc}, s.thread p = .at pc → (s.mem.proc p).state.stage = .running := by
    intro pc hp
    rw [hI.running_at hr hp]
    rfl
  cases he with
  | move t hm ht hcore =>
    refine hT.same hP (fun q => (hm.proc q).sameNode) (.update ht ?_)
    intro pc hpc
    exact .inl (hcore ▸ hpc)
  | forkAlloc q hp hq hm ht =>
    have hother : ∀ r, r ≠ q → s'.mem.proc r = s.mem.proc r := by
      intro r hne
      simp [hm, allocOne, hne]
    have hused : (s'.mem.proc q).state = .used := by simp [hm, allocOne]
    have hparent : ∀ r, (s'.mem.proc r).parent = (s.mem.proc r).parent := by
      intro r
      by_cases hne : r = q
      · simp [hm, allocOne, hne]
      · rw [hother r hne]
    refine hT.keep hP (funext hparent) ?_ ?_ ?_ ?_
    · intro r hlv
      have hne : r ≠ q := by
        rintro rfl
        rw [hq] at hlv
        cases hlv
      rwa [hother r hne]
    · intro r hu
      have hne : r ≠ q := by
        rintro rfl
        exact absurd (hu.symm.trans hused) (by simp)
      rw [hother r hne] at hu ⊢
      exact hT.empty r hu
    · intro r hb
      have hne : r ≠ q := by
        rintro rfl
        rw [hused] at hb
        rcases hb with hb | hb <;> cases hb
      rw [hother r hne] at hb
      exact .inl hb
    · intro r pc hpc
      rw [ht] at hpc
      by_cases hrp : r = p
      · rw [hrp, Function.update_self] at hpc
        cases hpc
        rw [hrp]
        exact .inr ⟨hlive hp, (hT.empty q hq).2.1⟩
      · rw [Function.update_of_ne hrp] at hpc
        by_cases hrq : r = q
        · rw [hrq, Function.update_self] at hpc
          cases hpc
        · rw [Function.update_of_ne hrq] at hpc
          exact .inl hpc
  | forkFail q hp hq hm ht =>
    refine hT.same hP ?_ (.update ht fun pc hpc => by cases hpc)
    rw [hm]
    exact hT.allocFail_sameNode hq
  | forkParent np hp hm ht => exact hT.forkParent hI hP hp hm ht
  | forkReady np hp hm ht =>
    obtain ⟨hused, -⟩ := hI.child p np (by rw [hp]; rfl)
    obtain ⟨-, hplace⟩ := hT.place p (.forkReady np) (by rw [hp]; rfl)
    have hother : ∀ r, r ≠ np → s'.mem.proc r = s.mem.proc r := by
      intro r hne
      rw [hm, Mem.setState_of_ne _ _ hne]
    have hready : (s'.mem.proc np).state = .runnable := by rw [hm, Mem.setState_self]
    refine hT.keep hP ?_ ?_ ?_ ?_ (.update ht fun pc hpc => by cases hpc)
    · funext r
      by_cases hne : r = np
      · simp [Mem.parent, hm, hne, Mem.setState]
      · rw [Mem.parent, Mem.parent, hother r hne]
    · intro r hlv
      have hne : r ≠ np := by
        rintro rfl
        rw [hused] at hlv
        cases hlv
      rwa [hother r hne]
    · intro r hu
      have hne : r ≠ np := by
        rintro rfl
        exact absurd (hu.symm.trans hready) (by simp)
      rw [hother r hne] at hu ⊢
      exact hT.empty r hu
    · intro r hb
      by_cases hne : r = np
      · right
        rw [hne, show (s.mem.proc np).parent = some p from hplace]
        simp
      · rw [hother r hne] at hb
        exact .inl hb
  | exit status hp hinit hm ht =>
    refine hT.sameMem hP hm (.update ht fun pc hpc => .inr ?_)
    cases hpc
    exact ⟨hlive hp, hinit, fun c _ => Nat.zero_le _⟩
  | reparent status q hp hq hm ht => exact hT.reparent hP hp hq hm ht
  | reparentSkip status q hp hq hm ht =>
    obtain ⟨hlv, hinit, hkids⟩ := hT.place p (.exitReparent status q.val) (by rw [hp]; rfl)
    refine hT.sameMem hP hm (.update ht fun pc hpc => .inr ?_)
    cases hpc
    refine ⟨hlv, hinit, ?_⟩
    intro c hc
    have hle := hkids c hc
    have hne : c.val ≠ q.val := by
      intro heq
      exact hq (Fin.ext heq ▸ hc)
    omega
  | reparentEnd status i chan hp hi hchan hm ht =>
    obtain ⟨hlv, hinit, hkids⟩ := hT.place p (.exitReparent status i) (by rw [hp]; rfl)
    refine hT.sameMem hP hm (.update ht fun pc hpc => .inr ?_)
    cases hpc
    refine ⟨hlv, hinit, ?_⟩
    intro c hc
    have hle := hkids c hc
    have hlt := c.isLt
    omega
  | wake chan ret q hp hm hq ht =>
    refine hT.same hP (fun r => (hm.proc r).sameNode) (.update ht fun pc hpc => .inr ?_)
    cases ret with
    | user | locked => cases hpc
    | reparent status j =>
      cases hpc
      exact hT.place p (.wakeup chan q.val (.reparent status j)) (by rw [hp]; rfl)
    | exit status =>
      cases hpc
      exact hT.place p (.wakeup chan q.val (.exit status)) (by rw [hp]; rfl)
  | wakeEnd chan ret i hp hi hm ht =>
    refine hT.sameMem hP hm (.update ht fun pc hpc => .inr ?_)
    cases ret with
    | user | locked => cases hpc
    | reparent status j =>
      cases hpc
      exact hT.place p (.wakeup chan i (.reparent status j)) (by rw [hp]; rfl)
    | exit status =>
      cases hpc
      exact hT.place p (.wakeup chan i (.exit status)) (by rw [hp]; rfl)
  | exitLast status hp hm ht => exact hT.exitLast hP hp hm ht
  | waitEnter x pc hp hcore hm ht =>
    refine hT.sameMem hP hm (.update ht fun pc' hpc => .inr ?_)
    cases hpc
    exact ⟨hlive hp, trivial⟩
  | waitNext x hk hk' q hp hq hm ht | waitFull x hk i hp hi hm ht =>
    refine hT.sameMem hP hm (.update ht fun pc hpc => .inr ?_)
    cases hpc
    exact ⟨hlive hp, trivial⟩
  | reap x hk q hp hq hz hm ht => exact hT.reap hP hq hz hm ht
  | waitLeave x hk i hp hm ht =>
    exact hT.sameMem hP hm (.update ht fun pc hpc => by cases hpc)
  | sleep x hp hm ht =>
    refine hT.same hP ?_ (.update ht fun pc hpc => by cases hpc)
    intro r
    by_cases hne : r = p
    · rw [hne, hm, Mem.set_proc_self]
      exact ⟨rfl, rfl, rfl, rfl, (hlive hp).symm⟩
    · rw [hm, Mem.set_proc_of_ne _ _ hne]
      exact ⟨rfl, rfl, rfl, rfl, rfl⟩

theorem boot_parent (q : Slot) : ((boot b H).mem.proc q).parent = none := by
  by_cases hq : q = initproc
  · simp [boot, bootMem, hq, Proc.zero]
  · simp [boot, bootMem, hq, Proc.zero]

theorem boot_tree : Tree (boot b H) := by
  have hproc : ∀ q, q ≠ initproc → (boot b H).mem.proc q = Proc.zero := by
    intro q hq
    simp [boot, bootMem, hq]
  refine ⟨?_, ?_, ?_, ?_, ?_, ?_⟩
  · intro p
    rw [boot_thread]
    split
    · exact .inr (.inl ⟨_, rfl⟩)
    · exact .inr (.inr rfl)
  · intro q hq
    have hne : q ≠ initproc := by
      rintro rfl
      rw [boot_state] at hq
      simp at hq
    rw [hproc q hne]
    exact ⟨rfl, rfl, rfl, rfl⟩
  · intro q r hq
    rw [boot_parent] at hq
    cases hq
  · intro q hq hb
    rw [hproc q hq] at hb
    rcases hb with hb | hb <;> cases hb
  · rw [boot_state]
    rfl
  · intro p pc hp
    rw [boot_thread] at hp
    split at hp <;> cases hp

variable [DecidableEq H]

theorem Tree.effect {h : H} (hT : Tree s) (hI : Inv b s) (he : Effect h s s') : Tree s' := by
  have hP := hT.placed.effect he
  cases he with
  | calm hm ht hr =>
    refine hT.same hP (fun q => (hm.proc q).sameNode) ?_
    intro q pc hq
    rw [ht] at hq
    exact .inl hq
  | swtchIn p hr hm ht hr' =>
    refine hT.sameMem hP hm ?_
    intro q pc hq
    rw [ht] at hq
    exact .inl hq
  | swtchOut p ret hr hp hm ht hr' =>
    refine hT.sameMem hP hm (.update ht fun pc hpc => .inl ?_)
    rw [hp]
    exact hpc
  | thread p hr hr' he => exact hT.threadEffect hI hP hr he

end
end Xv6.Sched
