import Xv6.Sched.Step

/-! # The scheduler invariant

`Inv` says that the harts follow the lock handover, that `struct cpu` agrees with it, and what a
thread that is not running looks like. The lemmas of this module say once for each kind of move
that it keeps the invariant; the step functions are built from these moves.
-/

namespace Xv6.Sched
set_option autoImplicit false
open Function (update update_self update_of_ne update_eq_self)
open Handover (Act handLock)

def lockCount (o : Option LockId) : ℕ := if o.isSome then 1 else 0

@[simp] theorem lockCount_none : lockCount none = 0 := rfl
@[simp] theorem lockCount_some (l : LockId) : lockCount (some l) = 1 := rfl

section
variable {H : Type}

def CpuOk (cpu : H → Cpu) (act : H → Act Slot LockId) : Prop :=
  ∀ h, (cpu h).At (act h).cur (lockCount ((act h).lock LockId.proc))

/-- A child that `fork` has not made `RUNNABLE` yet is `USED`, and no other `fork` has it. -/
def ChildOk (m : Mem) (thread : Slot → Thread) : Prop :=
  ∀ a c, (thread a).child = some c → (m.proc c).state = .used ∧
    ∀ a', (thread a').child = some c → a' = a

/-- The scheduler threads: what they have picked is `RUNNABLE`, and what one has popped from a
queue no other has popped. -/
structure SchedOk (b : Build) (m : Mem) (spc : H → SchedPc) : Prop where
  picked : ∀ h p, (spc h).picked = some p → (m.proc p).state = .runnable
  popped : ∀ h h' p, spc h = .loop (.popped p) → spc h' = .loop (.popped p) → h = h'
  build : ∀ h, (spc h).loc.build = b
  wf : ∀ h, (spc h).Wf

structure Inv (b : Build) (s : State H) : Prop where
  hand : Handover.Inv LockId.proc s.act s.locks fun p => (s.mem.proc p).state = .running
  cpu : CpuOk s.cpu s.act
  home : ∀ h p, s.run h = some p → ∃ l, s.spc h = .ret p l
  parked : ∀ p, (∀ h, s.run h ≠ some p) → (s.mem.proc p).state ≠ .unused →
    (s.mem.proc p).state ≠ .zombie → ∃ r, s.thread p = .resume r
  exited : ∀ p, (s.thread p).exited → (s.mem.proc p).state = .zombie ∨
    (s.mem.proc p).state = .unused
  child : ChildOk s.mem s.thread
  threadWf : ∀ p, (s.thread p).Wf
  sched : SchedOk b s.mem s.spc

/-- The changes of a process state that another process may make. -/
inductive Foreign (s : State H) (q : Slot) : ProcState → ProcState → Prop
  | same (st : ProcState) : Foreign s q st st
  | wake : Foreign s q .sleeping .runnable
  | reap : Foreign s q .zombie .unused
  | ready (h : ∀ a, (s.thread a).child ≠ some q) : Foreign s q .used .runnable

/-- Every process state changes only in a way another process may change it. -/
def Quiet (s : State H) (m : Mem) : Prop :=
  ∀ q, Foreign s q (s.mem.proc q).state (m.proc q).state

variable {b : Build} {s : State H} {h : H} {p : Slot}

theorem SchedOk.mono {m m' : Mem} {spc : H → SchedPc} (hI : SchedOk b m spc)
    (hm : ∀ q, (m.proc q).state = .runnable → (m'.proc q).state = .runnable) :
    SchedOk b m' spc :=
  ⟨fun g q hq => hm q (hI.picked g q hq), hI.popped, hI.build, hI.wf⟩

theorem Quiet.of_state_eq {m : Mem} (hm : ∀ q, (m.proc q).state = (s.mem.proc q).state) :
    Quiet s m := by
  intro q
  rw [hm q]
  exact .same _

theorem Quiet.set {q : Slot} {f : Proc → Proc}
    (hf : Foreign s q (s.mem.proc q).state (f (s.mem.proc q)).state) : Quiet s (s.mem.set q f) := by
  intro r
  by_cases hr : r = q
  · subst hr
    rw [Mem.set_proc_self]
    exact hf
  · rw [Mem.set_proc_of_ne _ _ hr]
    exact .same _

namespace Inv

theorem run_ne (hI : Inv b s) (hc : (s.act h).cur = some p) {g : H} (hg : g ≠ h) :
    s.run g ≠ some p := fun hr =>
  hg (hI.hand.uniq g h p (State.act_cur_of_run hr) hc)

theorem holds (hI : Inv b s) {o : Option LockId} (ho : (s.act h).lock LockId.proc = o) (l : LockId)
    (hl : o = some l) : s.locks l = some h :=
  (hI.hand.lock l h).mpr (ho.trans hl)

theorem not_holds (hI : Inv b s) {l : LockId} (ho : (s.act h).lock LockId.proc ≠ some l) :
    s.locks l ≠ some h := fun hl => ho ((hI.hand.lock l h).mp hl)

/-! ## Moves that leave the threads where they are -/

theorem setMem (hI : Inv b s) {m : Mem} (hm : Quiet s m) : Inv b { s with mem := m } where
  hand := by
    refine hI.hand.congr fun q => ?_
    have hq := hm q
    revert hq
    generalize (s.mem.proc q).state = st
    generalize (m.proc q).state = st'
    intro hq
    cases hq <;> simp
  cpu := hI.cpu
  home := hI.home
  parked := by
    intro q hrun hu hz
    refine hI.parked q hrun ?_ ?_ <;>
    · have hq := hm q
      intro heq
      rw [heq] at hq
      revert hu hz
      generalize (m.proc q).state = st' at hq
      cases hq <;> simp
  exited := by
    intro q hq
    have hf := hm q
    have := hI.exited q hq
    revert this
    generalize (s.mem.proc q).state = st at hf ⊢
    generalize (m.proc q).state = st' at hf
    cases hf <;> simp
  child := by
    intro a c hc
    obtain ⟨hu, ha⟩ := hI.child a c hc
    refine ⟨?_, ha⟩
    have hf := hm c
    rw [hu] at hf
    generalize (m.proc c).state = st' at hf
    cases hf with
    | same => rfl
    | ready hno => exact absurd hc (hno a)
  threadWf := hI.threadWf
  sched := by
    refine hI.sched.mono fun q hq => ?_
    have hf := hm q
    rw [hq] at hf
    generalize (m.proc q).state = st' at hf
    cases hf
    rfl

end Inv

section Moves
variable [DecidableEq H] {C : H → Cpu} {t : Thread} {L : LockId → Option H} {m : Mem} {l : Loc}

theorem CpuOk.update {cpu : H → Cpu} {act : H → Act Slot LockId} (hI : CpuOk cpu act) (h : H)
    {a : Act Slot LockId} (hC : ∀ g, g ≠ h → C g = cpu g)
    (hc : (C h).At a.cur (lockCount (a.lock LockId.proc))) : CpuOk C (update act h a) := by
  intro g
  by_cases hg : g = h
  · rw [hg, update_self]
    exact hc
  · rw [update_of_ne hg, hC g hg]
    exact hI g

theorem Inv.setCpu (hI : Inv b s) (hC : ∀ g, g ≠ h → C g = s.cpu g)
    (hc : (C h).At (s.act h).cur (lockCount ((s.act h).lock LockId.proc))) :
    Inv b { s with cpu := C } where
  hand := hI.hand
  cpu := by
    have := hI.cpu.update h hC hc
    rwa [update_eq_self] at this
  home := hI.home
  parked := hI.parked
  exited := hI.exited
  child := hI.child
  threadWf := hI.threadWf
  sched := hI.sched

/-! ## Moves of the thread of a process -/

theorem act_goThread (hr : s.run h = some p) (hne : ∀ g, g ≠ h → s.run g ≠ some p) :
    (s.goThread p t).act = update s.act h (t.act p) := by
  funext g
  by_cases hg : g = h
  · subst hg
    rw [update_self, State.act_some (s := s.goThread p t) hr]
    simp [State.goThread]
  · rw [update_of_ne hg]
    cases hgr : s.run g with
    | none => rw [State.act_none (s := s.goThread p t) hgr, State.act_none hgr]; rfl
    | some q =>
      have hqp : q ≠ p := fun e => hne g hg (e ▸ hgr)
      rw [State.act_some (s := s.goThread p t) hgr, State.act_some hgr]
      simp [State.goThread, hqp]

theorem act_goSched (pc : SchedPc) (hr : s.run h = none) :
    (s.goSched h pc).act = update s.act h pc.act := by
  funext g
  by_cases hg : g = h
  · subst hg
    rw [update_self, State.act_none (s := s.goSched g pc) hr]
    simp [State.goSched]
  · rw [update_of_ne hg]
    cases hgr : s.run g with
    | none =>
      rw [State.act_none (s := s.goSched h pc) hgr, State.act_none hgr]
      simp [State.goSched, hg]
    | some q => rw [State.act_some (s := s.goSched h pc) hgr, State.act_some hgr]; rfl

/-- The children thread `t` of `p` may have: they are `USED` and no other thread has them. -/
def MayHave (s : State H) (p : Slot) (t : Thread) : Prop :=
  ∀ c, t.child = some c → (s.mem.proc c).state = .used ∧ ∀ a, (s.thread a).child = some c → a = p

omit [DecidableEq H] in
theorem Inv.mayHave (hI : Inv b s) (ht : t.child = none ∨ t.child = (s.thread p).child) :
    MayHave s p t := by
  intro c hc
  rcases ht with ht | ht
  · simp [ht] at hc
  · exact hI.child p c (ht ▸ hc)

omit [DecidableEq H] in
theorem ChildOk.update (hI : ChildOk s.mem s.thread) (ht : MayHave s p t) :
    ChildOk s.mem (update s.thread p t) := by
  intro a c hc
  by_cases ha : a = p
  · subst ha
    rw [update_self] at hc
    obtain ⟨hu, huniq⟩ := ht c hc
    refine ⟨hu, fun a' ha' => ?_⟩
    by_cases hap : a' = a
    · exact hap
    · rw [update_of_ne hap] at ha'
      exact huniq a' ha'
  · rw [update_of_ne ha] at hc
    obtain ⟨hu, huniq⟩ := hI a c hc
    refine ⟨hu, fun a' ha' => ?_⟩
    by_cases hap : a' = p
    · subst hap
      rw [update_self] at ha'
      exact absurd ((ht c ha').2 a hc) ha
    · rw [update_of_ne hap] at ha'
      exact huniq a' ha'

omit [DecidableEq H] in
theorem Inv.threadWf_update (hI : Inv b s) (ht : t.Wf) (q : Slot) : (update s.thread p t q).Wf := by
  by_cases e : q = p
  · rw [e, update_self]
    exact ht
  · rw [update_of_ne e]
    exact hI.threadWf q

theorem Inv.goThread (hI : Inv b s) (hr : s.run h = some p) (hwf : t.Wf) (hexit : t.exited = false)
    (hchild : MayHave s p t) (hlive : (t.act p).live = ((s.thread p).act p).live)
    (hfree : ∀ l, (t.act p).lock LockId.proc = some l → s.locks l = none ∨ s.locks l = some h)
    (hL : L = handLock s.locks h (((s.thread p).act p).lock LockId.proc)
      ((t.act p).lock LockId.proc)) (hC : ∀ g, g ≠ h → C g = s.cpu g)
    (hc : (C h).At (some p) (lockCount ((t.act p).lock LockId.proc))) :
    Inv b { s.goThread p t with locks := L, cpu := C } := by
  have hact : s.act h = (s.thread p).act p := State.act_some hr
  have hcur : (s.act h).cur = some p := State.act_cur_of_run hr
  have hmove := act_goThread (t := t) hr fun g hg => hI.run_ne hcur hg
  refine ⟨?_, ?_, hI.home, ?_, ?_, hI.child.update hchild, hI.threadWf_update hwf, hI.sched⟩
  · show Handover.Inv _ (s.goThread p t).act L _
    rw [hmove, hL, ← hact]
    exact hI.hand.move (by rw [Thread.act_cur, hcur]) (by rw [hact, hlive]) hfree
  · show CpuOk C (s.goThread p t).act
    rw [hmove]
    exact hI.cpu.update h hC (by rw [Thread.act_cur]; exact hc)
  · intro q hrun hu hz
    have hq : q ≠ p := fun e => hrun h (e ▸ hr)
    obtain ⟨r, hqr⟩ := hI.parked q hrun hu hz
    exact ⟨r, by simpa [State.goThread, hq] using hqr⟩
  · intro q hq
    by_cases e : q = p
    · subst e
      simp [State.goThread, hexit] at hq
    · exact hI.exited q (by simpa [State.goThread, e] using hq)

theorem Inv.leave (hI : Inv b s) (hr : s.run h = some p) {pc : Pc} (ht : s.thread p = .at pc)
    {ret : Ret} (hfree : s.locks (.proc p) = none)
    (hL : L = handLock s.locks h pc.lock (some (.proc p))) (hC : ∀ g, g ≠ h → C g = s.cpu g)
    (hc : (C h).At (some p) 1) (hwf : ret.Wf) (hchild : ret.child = none ∨ ret.child = pc.child)
    (hexit : ret = .exit → (m.proc p).state = .zombie) (hst : (m.proc p).state ≠ .running)
    (hother : ∀ q, q ≠ p → (m.proc q).state = (s.mem.proc q).state) :
    Inv b { s.goThread p (.sched ret) with
      mem := m, locks := L, cpu := C } := by
  have hact : s.act h = .exec p pc.lock := by rw [State.act_some hr, ht]; rfl
  have hcur : (s.act h).cur = some p := State.act_cur_of_run hr
  have hmove := act_goThread (t := .sched ret) hr fun g hg => hI.run_ne hcur hg
  have hrunning : (s.mem.proc p).state = .running :=
    hI.hand.running_of_live h p (by rw [hact]; rfl)
  have hne : ∀ q st, (s.mem.proc q).state = st → st ≠ .running → q ≠ p := by
    rintro q st hq hst' rfl
    exact hst' (hq.symm.trans hrunning)
  refine ⟨?_, ?_, hI.home, ?_, ?_, ?_, hI.threadWf_update hwf, hI.sched.mono fun q hq => ?_⟩
  · show Handover.Inv _ (s.goThread p (.sched ret)).act L _
    rw [hmove, hL]
    refine (hI.hand.leave hact (.inl hfree)).congr fun q => ?_
    by_cases e : q = p
    · simp [e, hst]
    · simp [e, hother q e]
  · show CpuOk C (s.goThread p (.sched ret)).act
    rw [hmove]
    exact hI.cpu.update h hC hc
  · intro q hrun hu hz
    have hq : q ≠ p := fun e => hrun h (e ▸ hr)
    simp only [hother q hq] at hu hz
    obtain ⟨r, hqr⟩ := hI.parked q hrun hu hz
    exact ⟨r, by simpa [State.goThread, hq] using hqr⟩
  · intro q hq
    by_cases e : q = p
    · subst e
      refine .inl (hexit ?_)
      cases ret <;> simp [State.goThread, Thread.exited] at hq ⊢
    · have := hI.exited q (by simpa [State.goThread, e] using hq)
      simpa only [hother q e] using this
  · have hupd := hI.child.update (hI.mayHave (t := .sched ret) (by rw [ht]; exact hchild))
    intro a k hk
    obtain ⟨hu, huniq⟩ := hupd a k hk
    exact ⟨(hother k (hne k _ hu (by simp))).trans hu, huniq⟩
  · exact (hother q (hne q _ hq (by simp))).trans hq

theorem Inv.schedSwtch (hI : Inv b s) (hr : s.run h = some p) {ret : Ret}
    (ht : s.thread p = .sched ret) (i : Slot → Bool) :
    Inv b { s.goThread p (.resume ret) with
      intena := i, run := update s.run h none } := by
  obtain ⟨l, hl⟩ := hI.home h p hr
  have hact : s.act h = .leaving p := by rw [State.act_some hr, ht]; rfl
  have hcur : (s.act h).cur = some p := State.act_cur_of_run hr
  have hmove : State.act { s.goThread p (.resume ret) with
      intena := i, run := update s.run h none } = update s.act h (.back p) := by
    funext g
    by_cases hg : g = h
    · subst hg
      rw [update_self, State.act_none (by simp)]
      simp [State.goThread, hl, SchedPc.act]
    · have hrest := congrFun (act_goThread (t := .resume ret) hr fun g hg => hI.run_ne hcur hg) g
      rw [update_of_ne hg] at hrest ⊢
      rw [← hrest]
      simp [State.act, hg, State.goThread]
  have hlocks : handLock s.locks h ((s.act h).lock LockId.proc) (some (.proc p)) = s.locks := by
    rw [hact]
    exact Handover.handLock_self (hI.holds (by rw [hact]))
  refine ⟨?_, ?_, ?_, ?_, ?_, ?_, ?_, hI.sched⟩
  · rw [hmove]
    have := hI.hand.move (h := h) (a := .back p) (by rw [hact]; rfl) (by rw [hact]; rfl)
      (fun k hk => .inr (hI.holds (by rw [hact]; exact hk) k rfl))
    rwa [show (Act.back p : Act Slot LockId).lock LockId.proc = some (.proc p) from rfl,
      hlocks] at this
  · rw [hmove]
    exact hI.cpu.update h (a := .back p) (fun _ _ => rfl) (by have := hI.cpu h; rwa [hact] at this)
  · intro g q hgq
    by_cases hg : g = h
    · subst hg
      simp at hgq
    · exact hI.home g q (by simpa [hg] using hgq)
  · intro q hrun hu hz
    by_cases e : q = p
    · subst e
      exact ⟨ret, by simp [State.goThread]⟩
    · have hrun' : ∀ g, s.run g ≠ some q := by
        intro g hgq
        by_cases hg : g = h
        · subst hg
          exact e (Option.some.inj (hgq.symm.trans hr))
        · exact hrun g (by simpa [hg] using hgq)
      obtain ⟨r, hqr⟩ := hI.parked q hrun' hu hz
      exact ⟨r, by simpa [State.goThread, e] using hqr⟩
  · intro q hq
    by_cases e : q = p
    · subst e
      refine hI.exited q ?_
      rw [ht]
      cases ret <;> simp [State.goThread, Thread.exited] at hq ⊢
    · exact hI.exited q (by simpa [State.goThread, e] using hq)
  · exact hI.child.update (hI.mayHave (.inr (by rw [ht]; rfl)))
  · have hret := hI.threadWf p
    rw [ht] at hret
    exact hI.threadWf_update hret

/-! ## A new process -/

omit [DecidableEq H] in
theorem Inv.alloc (hI : Inv b s) {q : Slot} (hq : (s.mem.proc q).state = .unused)
    (hfree : s.locks (.proc q) = none) (hm : (m.proc q).state = .used)
    (hother : ∀ r, r ≠ q → (m.proc r).state = (s.mem.proc r).state) :
    Inv b { s.goThread q (.resume .forkret) with mem := m } := by
  have hidle : ∀ g, s.run g ≠ some q := by
    intro g hg
    exact hI.hand.not_cur (by simp [hq]) (by simp [hfree]) (State.act_cur_of_run hg)
  have hact : State.act { s.goThread q (.resume .forkret) with mem := m } = s.act := by
    funext g
    cases hg : s.run g with
    | none => rw [State.act_none (s := s) hg, State.act_none (by exact hg)]; rfl
    | some r =>
      have hrq : r ≠ q := fun e => hidle g (e ▸ hg)
      rw [State.act_some (s := s) hg, State.act_some (p := r) (by exact hg)]
      simp [State.goThread, hrq]
  have hne : ∀ r st, (s.mem.proc r).state = st → st ≠ .unused → r ≠ q := by
    rintro r st hr hst rfl
    exact hst (hr.symm.trans hq)
  refine ⟨?_, ?_, hI.home, ?_, ?_, ?_, hI.threadWf_update trivial, hI.sched.mono fun r hr => ?_⟩
  · rw [hact]
    refine hI.hand.congr fun r => ?_
    by_cases e : r = q
    · simp [e, hm, hq]
    · simp [hother r e]
  · rw [hact]
    exact hI.cpu
  · intro r hrun hu hz
    by_cases e : r = q
    · subst e
      exact ⟨.forkret, by simp [State.goThread]⟩
    · simp only [hother r e] at hu hz
      obtain ⟨k, hk⟩ := hI.parked r hrun hu hz
      exact ⟨k, by simpa [State.goThread, e] using hk⟩
  · intro r hr
    by_cases e : r = q
    · subst e
      simp [State.goThread, Thread.exited] at hr
    · have := hI.exited r (by simpa [State.goThread, e] using hr)
      simpa only [hother r e] using this
  · have hupd := hI.child.update (hI.mayHave (p := q) (t := .resume .forkret) (.inl rfl))
    intro a k hk
    obtain ⟨hu, huniq⟩ := hupd a k hk
    exact ⟨(hother k (hne k _ hu (by simp))).trans hu, huniq⟩
  · exact (hother r (hne r _ hr (by simp))).trans hr

/-! ## Moves of the scheduler thread -/

theorem SchedOk.update {spc : H → SchedPc} (hI : SchedOk b m spc) (pc : SchedPc)
    (hbuild : pc.loc.build = b) (hwf : pc.Wf)
    (hpick : ∀ q, pc.picked = some q → (m.proc q).state = .runnable)
    (hpop : ∀ q, pc = .loop (.popped q) → ∀ g, spc g ≠ .loop (.popped q)) :
    SchedOk b m (update spc h pc) := by
  constructor
  · intro g q hq
    by_cases hg : g = h
    · rw [hg, update_self] at hq
      exact hpick q hq
    · rw [update_of_ne hg] at hq
      exact hI.picked g q hq
  · intro g g' q hq hq'
    by_cases hg : g = h <;> by_cases hg' : g' = h
    · rw [hg, hg']
    · rw [hg, update_self] at hq
      rw [update_of_ne hg'] at hq'
      exact absurd hq' (hpop q hq g')
    · rw [hg', update_self] at hq'
      rw [update_of_ne hg] at hq
      exact absurd hq (hpop q hq' g)
    · rw [update_of_ne hg] at hq
      rw [update_of_ne hg'] at hq'
      exact hI.popped g g' q hq hq'
  · intro g
    by_cases hg : g = h
    · rwa [hg, update_self]
    · rw [update_of_ne hg]
      exact hI.build g
  · intro g
    by_cases hg : g = h
    · rwa [hg, update_self]
    · rw [update_of_ne hg]
      exact hI.wf g

section
variable (hI : Inv b s) (hr : s.run h = none)
include hI hr

theorem Inv.home_update {pc : SchedPc} (g : H) (q : Slot) (hg : s.run g = some q) :
    ∃ l, update s.spc h pc g = .ret q l := by
  have hgh : g ≠ h := by
    rintro rfl
    exact absurd (hg.symm.trans hr) (by simp)
  rw [update_of_ne hgh]
  exact hI.home g q hg

theorem Inv.goLoop {l0 : Loc} (hl0 : s.spc h = .loop l0) (hbuild : l.build = b) (hwf : l.Wf)
    (hfree : ∀ k, l.lock = some k → s.locks k = none ∨ s.locks k = some h)
    (hL : L = handLock s.locks h l0.lock l.lock) (hC : ∀ g, g ≠ h → C g = s.cpu g)
    (hc : (C h).At none (lockCount l.lock))
    (hpick : ∀ q, l.picked = some q → (s.mem.proc q).state = .runnable)
    (hpop : ∀ q, l = .popped q → ∀ g, s.spc g ≠ .loop (.popped q)) :
    Inv b { s.goSched h (.loop l) with locks := L, cpu := C } := by
  have hact : s.act h = .idle l0.lock := by rw [State.act_none hr, hl0]; rfl
  have hmove := act_goSched (.loop l) hr
  refine ⟨?_, ?_, hI.home_update hr, hI.parked, hI.exited, hI.child, hI.threadWf,
    hI.sched.update _ hbuild hwf hpick fun q hq => hpop q (SchedPc.loop.inj hq)⟩
  · show Handover.Inv _ (s.goSched h (.loop l)).act L _
    rw [hmove, hL]
    have := hI.hand.move (h := h) (a := .idle l.lock) (by rw [hact]; rfl) (by rw [hact]; rfl) hfree
    rwa [hact] at this
  · show CpuOk C (s.goSched h (.loop l)).act
    rw [hmove]
    exact hI.cpu.update h hC hc

theorem Inv.dispatch {l0 : Loc} (hl0 : s.spc h = .loop l0) (hbuild : l.build = b)
    (hl : l.picked = none) (hfree : s.locks (.proc p) = none ∨ s.locks (.proc p) = some h)
    (hL : L = handLock s.locks h l0.lock (some (.proc p))) (hC : ∀ g, g ≠ h → C g = s.cpu g)
    (hc : (C h).At (some p) 1) (hp : (s.mem.proc p).state = .runnable)
    (hpick : ∀ g, g ≠ h → (s.spc g).picked ≠ some p) (hm : (m.proc p).state = .running)
    (hother : ∀ q, q ≠ p → (m.proc q).state = (s.mem.proc q).state) :
    Inv b { s.goSched h (.swtch p l) with
      mem := m, locks := L, cpu := C } := by
  have hact : s.act h = .idle l0.lock := by rw [State.act_none hr, hl0]; rfl
  have hmove := act_goSched (.swtch p l) hr
  have hne : ∀ q st, (s.mem.proc q).state = st → st ≠ .runnable → q ≠ p := by
    rintro q st hq hst rfl
    exact hst (hq.symm.trans hp)
  refine ⟨?_, ?_, hI.home_update hr, ?_, ?_, ?_, hI.threadWf, ?_⟩
  · show Handover.Inv _ (s.goSched h (.swtch p l)).act L _
    rw [hmove, hL]
    have := hI.hand.enter (p := p) (by rw [hact]; rfl) (by simp [hp]) hfree
    rw [hact] at this
    refine this.congr fun q => ?_
    by_cases e : q = p
    · simp [e, hm]
    · simp [e, hother q e]
  · show CpuOk C (s.goSched h (.swtch p l)).act
    rw [hmove]
    exact hI.cpu.update h hC hc
  · intro q hrun hu hz
    by_cases e : q = p
    · subst e
      exact hI.parked q hrun (by simp [hp]) (by simp [hp])
    · simp only [hother q e] at hu hz
      exact hI.parked q hrun hu hz
  · intro q hq
    have hex := hI.exited q hq
    have e : q ≠ p := by
      rintro rfl
      simp [hp] at hex
    simpa only [hother q e] using hex
  · intro a k hk
    obtain ⟨hu, huniq⟩ := hI.child a k hk
    exact ⟨(hother k (hne k _ hu (by simp))).trans hu, huniq⟩
  · -- the candidates of the other harts are still `RUNNABLE`, since `p` is none of them
    have hupd := hI.sched.update (h := h) (.swtch p l) hbuild hl (by simp [SchedPc.picked])
      (by simp)
    refine ⟨?_, hupd.popped, hupd.build, hupd.wf⟩
    intro g q hq
    have hrn := hupd.picked g q hq
    have e : q ≠ p := by
      rintro rfl
      by_cases hg : g = h
      · subst hg
        simp [State.goSched, SchedPc.picked] at hq
      · exact hpick g hg (by simpa [State.goSched, hg] using hq)
    exact (hother q e).trans hrn

theorem Inv.swtch (hl : s.spc h = .swtch p l) :
    Inv b { s.goSched h (.ret p l) with run := update s.run h (some p) } := by
  have hact : s.act h = .enter p := by rw [State.act_none hr, hl]; rfl
  have hcur : (s.act h).cur = some p := by rw [hact]; rfl
  have hrunning : (s.mem.proc p).state = .running :=
    hI.hand.running_of_live h p (by rw [hact]; rfl)
  have hidle : ∀ g, s.run g ≠ some p := by
    intro g hg
    by_cases e : g = h
    · subst e
      simp [hr] at hg
    · exact hI.run_ne hcur e hg
  obtain ⟨r, ht⟩ := hI.parked p hidle (by simp [hrunning]) (by simp [hrunning])
  have hmove : State.act { s.goSched h (.ret p l) with run := update s.run h (some p) } =
      update s.act h (.resumed p) := by
    funext g
    by_cases hg : g = h
    · subst hg
      rw [update_self, State.act_some (p := p) (by simp)]
      simp [State.goSched, ht, Thread.act]
    · rw [update_of_ne hg]
      simp [State.act, hg, State.goSched]
  have hlocks : handLock s.locks h ((s.act h).lock LockId.proc) (some (.proc p)) = s.locks := by
    rw [hact]
    exact Handover.handLock_self (hI.holds (by rw [hact]))
  refine ⟨?_, ?_, ?_, ?_, hI.exited, hI.child, hI.threadWf, ?_⟩
  · rw [hmove]
    have := hI.hand.move (h := h) (a := .resumed p) (by rw [hact]; rfl) (by rw [hact]; rfl)
      (fun k hk => .inr (hI.holds (by rw [hact]; exact hk) k rfl))
    rwa [show (Act.resumed p : Act Slot LockId).lock LockId.proc = some (.proc p) from rfl,
      hlocks] at this
  · rw [hmove]
    exact hI.cpu.update h (a := .resumed p) (fun _ _ => rfl)
      (by have := hI.cpu h; rwa [hact] at this)
  · intro g q hgq
    by_cases hg : g = h
    · subst hg
      obtain rfl : p = q := by simpa using hgq
      exact ⟨l, by simp [State.goSched]⟩
    · have := hI.home g q (by simpa [hg] using hgq)
      simpa [State.goSched, hg] using this
  · intro q hrun hu hz
    refine hI.parked q (fun g hg => ?_) hu hz
    have e : g ≠ h := by
      rintro rfl
      simp [hr] at hg
    exact hrun g (by simpa [e] using hg)
  · have hwf := hI.sched.wf h
    have hb := hI.sched.build h
    rw [hl] at hwf hb
    exact hI.sched.update _ hb hwf (by simp [SchedPc.picked]) (by simp)

theorem Inv.ret (hl : s.spc h = .ret p l) (hC : ∀ g, g ≠ h → C g = s.cpu g) (hc : (C h).At none 0) :
    Inv b { s.goSched h (.loop l) with
      locks := update s.locks (.proc p) none, cpu := C } := by
  have hact : s.act h = .back p := by rw [State.act_none hr, hl]; rfl
  have hwf : l.picked = none := by
    have := hI.sched.wf h
    rwa [hl] at this
  have hnolock : l.lock = none := by
    cases l <;> simp_all [Loc.picked, Loc.lock]
  have hlwf : l.Wf := by
    cases l <;> simp_all [Loc.picked, Loc.Wf]
  have hmove := act_goSched (.loop l) hr
  rw [SchedPc.act, hnolock] at hmove
  have hb := hI.sched.build h
  rw [hl] at hb
  refine ⟨?_, ?_, hI.home_update hr, hI.parked, hI.exited, hI.child, hI.threadWf,
    hI.sched.update _ hb hlwf (by simp [SchedPc.picked, hwf]) ?_⟩
  · show Handover.Inv _ (s.goSched h (.loop l)).act _ _
    rw [hmove, ← Handover.handLock_release (h := h)]
    exact hI.hand.drop hact
  · show CpuOk C (s.goSched h (.loop l)).act
    rw [hmove]
    exact hI.cpu.update h hC hc
  · intro q hq
    obtain rfl := SchedPc.loop.inj hq
    simp [Loc.picked] at hwf

end

end Moves
end
end Xv6.Sched
