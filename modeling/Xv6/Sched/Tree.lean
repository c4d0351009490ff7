import Xv6.Sched.Effect

/-! # The process tree

An unused slot is empty, and the parent of every process that has been created and not yet freed
is a process that has not exited. `exit` gives its children away one by one before it becomes a
zombie; `TreePlace` says how far it has got. The invariant is kept by every step because of what
`Effect` says the step may do.
-/

namespace Xv6.Sched
set_option autoImplicit false
open Function (update update_self update_of_ne)

/-- What the tree, given by the parents, looks like to a thread of `p` at `pc`. -/
def TreePlace (parent : Slot → Option Slot) (p : Slot) : Pc → Prop
  | .forkParent np => parent np = none
  | .forkReady np => parent np = some p
  | .exitReparent _ i | .wakeup _ _ (.reparent _ i) =>
    p ≠ initproc ∧ ∀ c, parent c = some p → i ≤ c.val
  | .wakeup _ _ (.exit _) | .exitLast _ => p ≠ initproc ∧ ∀ c, parent c ≠ some p
  | _ => True

theorem TreePlace.mono {parent parent' : Slot → Option Slot} {p : Slot} {pc : Pc}
    (h : TreePlace parent p pc) (hfork : ∀ c, pc = .forkParent c → parent' c = none)
    (hready : ∀ c, pc = .forkReady c → parent' c = some p)
    (hkids : p ≠ initproc → ∀ c, parent' c = some p → parent c = some p) :
    TreePlace parent' p pc := by
  cases pc with
  | forkParent c => exact hfork c rfl
  | forkReady c => exact hready c rfl
  | exitReparent status i => exact ⟨h.1, fun c hc => h.2 c (hkids h.1 c hc)⟩
  | exitLast status => exact ⟨h.1, fun c hc => h.2 c (hkids h.1 c hc)⟩
  | wakeup chan i ret =>
    cases ret with
    | reparent status i => exact ⟨h.1, fun c hc => h.2 c (hkids h.1 c hc)⟩
    | exit status => exact ⟨h.1, fun c hc => h.2 c (hkids h.1 c hc)⟩
    | _ => trivial
  | _ => trivial

def Mem.parent (m : Mem) (q : Slot) : Option Slot := (m.proc q).parent

def Proc.Empty (x : Proc) : Prop :=
  x.pid = 0 ∧ x.parent = none ∧ x.pagetable = false ∧ x.trapframe = false

/-- Processes that have been made `RUNNABLE` and have not been freed. -/
def ProcState.born (st : ProcState) : Prop := st.stage = .running ∨ st = .zombie

section
variable {H : Type}

/-- A thread that no hart executes is at a `swtch`, or its slot has never been used. -/
def Placed (s : State H) : Prop :=
  ∀ p, (∃ h, s.run h = some p) ∨ (∃ ret, s.thread p = .resume ret) ∨ s.thread p = .absent

structure Tree (s : State H) : Prop where
  placed : Placed s
  empty : ∀ q, (s.mem.proc q).state = .unused → (s.mem.proc q).Empty
  parent : ∀ q r, (s.mem.proc q).parent = some r → (s.mem.proc r).state.stage = .running
  child : ∀ q, q ≠ initproc → (s.mem.proc q).state.born → (s.mem.proc q).parent ≠ none
  root : (s.mem.proc initproc).state.stage = .running
  place : ∀ p pc, (s.thread p).core = some pc →
    (s.mem.proc p).state.stage = .running ∧ TreePlace s.mem.parent p pc

variable {pc : Pc} {np p q : Slot} {t : Thread}

theorem Pc.child_of_core {pc' : Pc} (h : pc.core = some pc') (hpc' : pc'.child = some np) :
    pc.child = some np := by
  induction pc with
  | wakeup chan i ret =>
    cases ret <;> simp only [Pc.core, Option.some.injEq, reduceCtorEq] at h <;> subst h <;>
      exact hpc'
  | tick _ ret ih | tickPush _ ret ih | tickYield ret ih => exact ih h
  | _ =>
    simp only [Pc.core, Option.some.injEq, reduceCtorEq] at h <;> subst h <;> exact hpc'

theorem Thread.child_of_core (h : t.core = some pc) (hpc : pc.child = some np) :
    t.child = some np := by
  cases t with
  | «at» pc' => exact Pc.child_of_core h hpc
  | sched ret | resume ret =>
    cases ret with
    | yield pc' | sleep pc' =>
      have hchild : pc'.child = some np := Pc.child_of_core h hpc
      exact hchild
    | forkret | exit => cases h
  | absent => cases h

variable [DecidableEq H] {b : Build} {s s' : State H}

theorem Placed.effect {h : H} (hP : Placed s) (he : Effect h s s') : Placed s' := by
  cases he with
  | calm hm ht hr =>
    intro p
    rw [ht, hr]
    exact hP p
  | swtchIn p hr hm ht hr' =>
    intro q
    rw [ht, hr']
    rcases hP q with ⟨g, hg⟩ | hq
    · have hgh : g ≠ h := by
        rintro rfl
        exact absurd (hg.symm.trans hr) (by simp)
      exact .inl ⟨g, by rw [update_of_ne hgh, hg]⟩
    · exact .inr hq
  | swtchOut p ret hr hp hm ht hr' =>
    intro q
    rw [ht, hr']
    by_cases hq : q = p
    · exact .inr (.inl ⟨ret, by rw [hq, update_self]⟩)
    · rw [update_of_ne hq]
      rcases hP q with ⟨g, hg⟩ | hq'
      · have hgh : g ≠ h := by
          rintro rfl
          exact hq (Option.some.inj (hg.symm.trans hr))
        exact .inl ⟨g, by rw [update_of_ne hgh, hg]⟩
      · exact .inr hq'
  | thread p hr hr' he =>
    have hupd : ∀ t, s'.thread = update s.thread p t → Placed s' := by
      intro t ht q
      rw [ht, hr']
      by_cases hq : q = p
      · exact .inl ⟨h, hq ▸ hr⟩
      · rw [update_of_ne hq]
        exact hP q
    cases he with
    | forkAlloc np hp hq hm ht =>
      intro q
      rw [ht, hr']
      by_cases hqp : q = p
      · exact .inl ⟨h, hqp ▸ hr⟩
      · rw [update_of_ne hqp]
        by_cases hqn : q = np
        · exact .inr (.inl ⟨.forkret, by rw [hqn, update_self]⟩)
        · rw [update_of_ne hqn]
          exact hP q
    | move t hm ht => exact hupd t ht
    | forkFail q hp hq hm ht | forkParent np hp hm ht | forkReady np hp hm ht
    | exit status hp hinit hm ht | reparent status q hp hq hm ht
    | reparentSkip status q hp hq hm ht | reparentEnd status i chan hp hi hchan hm ht
    | wake chan ret q hp hm hq ht | wakeEnd chan ret i hp hi hm ht | exitLast status hp hm ht
    | waitEnter x pc hp hcore hm ht | waitNext x hk hk' q hp hq hm ht
    | reap x hk q hp hq hz hm ht | waitLeave x hk i hp hm ht | waitFull x hk i hp hi hm ht
    | sleep x hp hm ht => exact hupd _ ht

/-! ## Steps that keep the parents -/

/-- The places that matter after a step are the ones before it, and new ones of processes that
have not exited. -/
def CoreFrom (s s' : State H) : Prop :=
  ∀ q pc, (s'.thread q).core = some pc → (s.thread q).core = some pc ∨
    (s.mem.proc q).state.stage = .running ∧ TreePlace s.mem.parent q pc

omit [DecidableEq H] in
theorem CoreFrom.update (ht : s'.thread = update s.thread p t)
    (hcore : ∀ pc, t.core = some pc → (s.thread p).core = some pc ∨
      (s.mem.proc p).state.stage = .running ∧ TreePlace s.mem.parent p pc) : CoreFrom s s' := by
  intro q pc hq
  rw [ht] at hq
  by_cases hqp : q = p
  · rw [hqp, update_self] at hq
    rw [hqp]
    exact hcore pc hq
  · rw [update_of_ne hqp] at hq
    exact .inl hq

omit [DecidableEq H] in
theorem Tree.keep (hT : Tree s) (hP : Placed s')
    (hparent : s'.mem.parent = s.mem.parent)
    (hlive : ∀ q, (s.mem.proc q).state.stage = .running → (s'.mem.proc q).state.stage = .running)
    (hempty : ∀ q, (s'.mem.proc q).state = .unused → (s'.mem.proc q).Empty)
    (hborn : ∀ q, (s'.mem.proc q).state.born → (s.mem.proc q).state.born ∨
      (s.mem.proc q).parent ≠ none)
    (hcore : CoreFrom s s') : Tree s' := by
  refine ⟨hP, hempty, ?_, ?_, hlive _ hT.root, ?_⟩
  · intro q r hq
    exact hlive r (hT.parent q r ((congrFun hparent q).symm.trans hq))
  · intro q hq hb hno
    have hno : (s.mem.proc q).parent = none := (congrFun hparent q).symm.trans hno
    rcases hborn q hb with hb | hp
    · exact hT.child q hq hb hno
    · exact hp hno
  · intro q pc hq
    rw [hparent]
    rcases hcore q pc hq with hold | ⟨hst, hplace⟩
    · obtain ⟨hst, hplace⟩ := hT.place q pc hold
      exact ⟨hlive q hst, hplace⟩
    · exact ⟨hlive q hst, hplace⟩

structure SameNode (x y : Proc) : Prop where
  pid : y.pid = x.pid
  parent : y.parent = x.parent
  pagetable : y.pagetable = x.pagetable
  trapframe : y.trapframe = x.trapframe
  stage : y.state.stage = x.state.stage

theorem ProcCalm.sameNode {x y : Proc} (h : ProcCalm x y) : SameNode x y :=
  ⟨h.pid, h.parent, h.pagetable, h.trapframe, h.stage⟩

omit [DecidableEq H] in
theorem Tree.allocFail_sameNode (hT : Tree s) (hq : (s.mem.proc q).state = .unused) (r : Slot) :
    SameNode (s.mem.proc r) ((allocFail p q s.mem).proc r) := by
  by_cases hne : r = q
  · obtain ⟨hpid, hpar, hpt, htf⟩ := hT.empty q hq
    rw [hne, allocFail, freeproc, Mem.set_proc_self]
    exact ⟨hpid.symm, hpar.symm, hpt.symm, htf.symm, by rw [hq]⟩
  · simp only [allocFail, freeproc, allocOne, Mem.set_proc_of_ne _ _ hne]
    exact ⟨rfl, rfl, rfl, rfl, rfl⟩

theorem ProcState.eq_of_stage {st st' : ProcState} (h : st.stage = st'.stage)
    (hne : st'.stage ≠ .running) : st = st' := by
  cases st <;> cases st' <;> simp_all [ProcState.stage]

theorem ProcState.born_congr {st st' : ProcState} (h : st.stage = st'.stage) (hb : st.born) :
    st'.born := by
  cases st <;> cases st' <;> simp_all [ProcState.stage, ProcState.born]

section
variable (hT : Tree s)
include hT

omit [DecidableEq H] in
theorem Tree.same (hP : Placed s') (hm : ∀ q, SameNode (s.mem.proc q) (s'.mem.proc q))
    (hcore : CoreFrom s s') : Tree s' := by
  refine hT.keep hP (funext fun q => (hm q).parent) (fun q hq => (hm q).stage.trans hq) ?_ ?_ hcore
  · intro q hq
    have hstage := (hm q).stage
    rw [hq] at hstage
    obtain ⟨hpid, hpar, hpt, htf⟩ := hT.empty q (ProcState.eq_of_stage hstage.symm (by simp
      [ProcState.stage]))
    exact ⟨(hm q).pid.trans hpid, (hm q).parent.trans hpar, (hm q).pagetable.trans hpt,
      (hm q).trapframe.trans htf⟩
  · intro q hb
    exact .inl (ProcState.born_congr (hm q).stage hb)

omit [DecidableEq H] in
theorem Tree.sameMem (hP : Placed s') (hm : s'.mem = s.mem) (hcore : CoreFrom s s') : Tree s' := by
  refine hT.same hP ?_ hcore
  intro q
  rw [hm]
  exact ⟨rfl, rfl, rfl, rfl, rfl⟩

/-! ## Steps that change the tree -/

omit [DecidableEq H] in
theorem Tree.place_of_ne (ht : s'.thread = update s.thread p t) (hq : (s'.thread q).core = some pc)
    (hqp : q ≠ p) : (s.thread q).core = some pc ∧ (s.mem.proc q).state.stage = .running ∧
      TreePlace s.mem.parent q pc := by
  rw [ht, update_of_ne hqp] at hq
  exact ⟨hq, hT.place q pc hq⟩

omit [DecidableEq H] in
theorem Tree.forkParent (hI : Inv b s) (hP : Placed s') (hp : s.thread p = .at (.forkParent np))
    (hm : s'.mem = s.mem.set np fun x => { x with parent := some p })
    (ht : s'.thread = update s.thread p (.at (.forkReady np))) : Tree s' := by
  obtain ⟨hused, huniq⟩ := hI.child p np (by rw [hp]; rfl)
  have hlive : (s.mem.proc p).state.stage = .running := (hT.place p _ (by rw [hp]; rfl)).1
  have hself : (s'.mem.proc np).parent = some p := by rw [hm, Mem.set_proc_self]
  have hother : ∀ q, q ≠ np → s'.mem.proc q = s.mem.proc q := by
    intro q hq
    rw [hm, Mem.set_proc_of_ne _ _ hq]
  have hstate : ∀ q, (s'.mem.proc q).state = (s.mem.proc q).state := by
    intro q
    by_cases hq : q = np
    · rw [hm, hq, Mem.set_proc_self]
    · rw [hother q hq]
  refine ⟨hP, ?_, ?_, ?_, ?_, ?_⟩
  · intro q hq
    rw [hstate] at hq
    have hne : q ≠ np := by
      rintro rfl
      exact absurd (hq.symm.trans hused) (by simp)
    rw [hother q hne]
    exact hT.empty q hq
  · intro q r hq
    rw [hstate]
    by_cases hne : q = np
    · rw [hne, hself] at hq
      rw [← Option.some.inj hq]
      exact hlive
    · rw [hother q hne] at hq
      exact hT.parent q r hq
  · intro q hq hb
    by_cases hne : q = np
    · rw [hne, hself]
      simp
    · rw [hother q hne] at hb ⊢
      exact hT.child q hq hb
  · rw [hstate]
    exact hT.root
  · intro q pc hq
    rw [hstate]
    by_cases hqp : q = p
    · rw [ht, hqp, update_self] at hq
      cases hq
      rw [hqp]
      exact ⟨hlive, hself⟩
    · obtain ⟨hcore, hst, hplace⟩ := hT.place_of_ne ht hq hqp
      refine ⟨hst, ?_⟩
      -- no other `fork` has this child, and its new parent is none of the exiting processes
      have hchild : ∀ c, pc.child = some c → c ≠ np := by
        rintro c hc rfl
        exact hqp (huniq q (Thread.child_of_core hcore hc))
      refine hplace.mono ?_ ?_ ?_
      · rintro c rfl
        exact (congrArg Proc.parent (hother c (hchild c rfl))).trans hplace
      · rintro c rfl
        exact (congrArg Proc.parent (hother c (hchild c rfl))).trans hplace
      · intro _ c hc
        by_cases hcn : c = np
        · rw [hcn] at hc
          exact absurd (Option.some.inj (hc.symm.trans hself)) hqp
        · exact (congrArg Proc.parent (hother c hcn)).symm.trans hc

omit [DecidableEq H] in
theorem Tree.reparent (hP : Placed s') {status : ℤ}
    (hp : s.thread p = .at (.exitReparent status q.val)) (hq : (s.mem.proc q).parent = some p)
    (hm : s'.mem = s.mem.set q fun x => { x with parent := some initproc })
    (ht : s'.thread = update s.thread p
      (.at (.wakeup (.proc initproc) 0 (.reparent status (q.val + 1))))) : Tree s' := by
  obtain ⟨hlive, hpinit, hkids⟩ := hT.place p (.exitReparent status q.val) (by rw [hp]; rfl)
  have hself : (s'.mem.proc q).parent = some initproc := by rw [hm, Mem.set_proc_self]
  have hother : ∀ r, r ≠ q → s'.mem.proc r = s.mem.proc r := by
    intro r hr
    rw [hm, Mem.set_proc_of_ne _ _ hr]
  have hstate : ∀ r, (s'.mem.proc r).state = (s.mem.proc r).state := by
    intro r
    by_cases hr : r = q
    · rw [hm, hr, Mem.set_proc_self]
    · rw [hother r hr]
  have hpar : ∀ r c, r ≠ initproc → (s'.mem.proc c).parent = some r →
      c ≠ q ∧ (s.mem.proc c).parent = some r := by
    intro r c hr hc
    have hcq : c ≠ q := by
      rintro rfl
      rw [hself] at hc
      exact hr (Option.some.inj hc).symm
    exact ⟨hcq, by rwa [hother c hcq] at hc⟩
  refine ⟨hP, ?_, ?_, ?_, ?_, ?_⟩
  · intro r hr
    rw [hstate] at hr
    have hne : r ≠ q := by
      rintro rfl
      rw [(hT.empty r hr).2.1] at hq
      cases hq
    rw [hother r hne]
    exact hT.empty r hr
  · intro c r hc
    rw [hstate]
    by_cases hr : r = initproc
    · rw [hr]
      exact hT.root
    · exact hT.parent c r (hpar r c hr hc).2
  · intro r hr hb
    by_cases hne : r = q
    · rw [hne, hself]
      simp
    · rw [hother r hne] at hb ⊢
      exact hT.child r hr hb
  · rw [hstate]
    exact hT.root
  · intro r pc hr
    rw [hstate]
    by_cases hrp : r = p
    · rw [ht, hrp, update_self] at hr
      cases hr
      rw [hrp]
      refine ⟨hlive, hpinit, ?_⟩
      intro c hc
      obtain ⟨hcq, hc⟩ := hpar p c hpinit hc
      have hle := hkids c hc
      have hne : c.val ≠ q.val := fun e => hcq (Fin.ext e)
      omega
    · obtain ⟨hcore, hst, hplace⟩ := hT.place_of_ne ht hr hrp
      refine ⟨hst, ?_⟩
      refine hplace.mono ?_ ?_ ?_
      · rintro c rfl
        have hc : c ≠ q := by
          rintro rfl
          exact absurd (hq.symm.trans hplace) (by simp)
        exact (congrArg Proc.parent (hother c hc)).trans hplace
      · rintro c rfl
        have hc : c ≠ q := by
          rintro rfl
          exact hrp (Option.some.inj (hplace.symm.trans hq))
        exact (congrArg Proc.parent (hother c hc)).trans hplace
      · intro hr c hc
        exact (hpar r c hr hc).2

omit [DecidableEq H] in
theorem Tree.exitLast (hP : Placed s') {status : ℤ} (hp : s.thread p = .at (.exitLast status))
    (hm : s'.mem = s.mem.set p fun x => { x with xstate := status, state := .zombie })
    (ht : s'.thread = update s.thread p (.sched .exit)) : Tree s' := by
  obtain ⟨hlive, hpinit, hkids⟩ := hT.place p (.exitLast status) (by rw [hp]; rfl)
  have hzombie : (s'.mem.proc p).state = .zombie := by rw [hm, Mem.set_proc_self]
  have hother : ∀ r, r ≠ p → s'.mem.proc r = s.mem.proc r := by
    intro r hr
    rw [hm, Mem.set_proc_of_ne _ _ hr]
  have hparent : s'.mem.parent = s.mem.parent := by
    funext r
    by_cases hr : r = p
    · rw [Mem.parent, Mem.parent, hm, hr, Mem.set_proc_self]
    · rw [Mem.parent, Mem.parent, hother r hr]
  refine ⟨hP, ?_, ?_, ?_, ?_, ?_⟩
  · intro r hr
    have hne : r ≠ p := by
      rintro rfl
      exact absurd (hr.symm.trans hzombie) (by simp)
    rw [hother r hne] at hr ⊢
    exact hT.empty r hr
  · intro c r hc
    have hc : (s.mem.proc c).parent = some r := (congrFun hparent c).symm.trans hc
    have hne : r ≠ p := by
      rintro rfl
      exact hkids c hc
    rw [hother r hne]
    exact hT.parent c r hc
  · intro r hr hb hno
    have hno : (s.mem.proc r).parent = none := (congrFun hparent r).symm.trans hno
    by_cases hne : r = p
    · exact hT.child r hr (.inl (by rw [hne]; exact hlive)) hno
    · rw [hother r hne] at hb
      exact hT.child r hr hb hno
  · rw [hother _ (Ne.symm hpinit)]
    exact hT.root
  · intro r pc hr
    by_cases hrp : r = p
    · rw [ht, hrp, update_self] at hr
      cases hr
    · obtain ⟨-, hst, hplace⟩ := hT.place_of_ne ht hr hrp
      rw [hother r hrp, hparent]
      exact ⟨hst, hplace⟩

omit [DecidableEq H] in
theorem Tree.reap (hP : Placed s') (hq : (s.mem.proc q).parent = some p)
    (hz : (s.mem.proc q).state = .zombie) (hm : s'.mem = freeproc q s.mem)
    (ht : s'.thread = update s.thread p (.at .user)) : Tree s' := by
  have hself : (s'.mem.proc q).Empty ∧ (s'.mem.proc q).state = .unused := by
    rw [hm, freeproc, Mem.set_proc_self]
    exact ⟨⟨rfl, rfl, rfl, rfl⟩, rfl⟩
  have hother : ∀ r, r ≠ q → s'.mem.proc r = s.mem.proc r := by
    intro r hr
    rw [hm, freeproc, Mem.set_proc_of_ne _ _ hr]
  have hne : ∀ r, (s.mem.proc r).state.stage = .running → r ≠ q := by
    rintro r hr rfl
    rw [hz] at hr
    cases hr
  have hpar : ∀ c r, (s'.mem.proc c).parent = some r →
      c ≠ q ∧ (s.mem.proc c).parent = some r := by
    intro c r hc
    have hcq : c ≠ q := by
      rintro rfl
      rw [hself.1.2.1] at hc
      cases hc
    exact ⟨hcq, by rwa [hother c hcq] at hc⟩
  refine ⟨hP, ?_, ?_, ?_, ?_, ?_⟩
  · intro r hr
    by_cases hrq : r = q
    · rw [hrq]
      exact hself.1
    · rw [hother r hrq] at hr ⊢
      exact hT.empty r hr
  · intro c r hc
    have hlive := hT.parent c r (hpar c r hc).2
    rwa [hother r (hne r hlive)]
  · intro r hr hb
    have hrq : r ≠ q := by
      rintro rfl
      rw [hself.2] at hb
      rcases hb with hb | hb <;> cases hb
    rw [hother r hrq] at hb ⊢
    exact hT.child r hr hb
  · rw [hother _ (hne _ hT.root)]
    exact hT.root
  · intro r pc hr
    by_cases hrp : r = p
    · rw [ht, hrp, update_self] at hr
      cases hr
    · obtain ⟨-, hst, hplace⟩ := hT.place_of_ne ht hr hrp
      rw [hother r (hne r hst)]
      refine ⟨hst, ?_⟩
      refine hplace.mono ?_ ?_ ?_
      · rintro c rfl
        by_cases hc : c = q
        · rw [hc]
          exact hself.1.2.1
        · exact (congrArg Proc.parent (hother c hc)).trans hplace
      · rintro c rfl
        have hc : c ≠ q := by
          rintro rfl
          exact hrp (Option.some.inj (hplace.symm.trans hq))
        exact (congrArg Proc.parent (hother c hc)).trans hplace
      · intro _ c hc
        exact (hpar c r hc).2

end

end
end Xv6.Sched
