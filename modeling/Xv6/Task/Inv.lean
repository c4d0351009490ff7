import Xv6.Task.Step

/-! # What holds between calls

The memory is in a reachable state of the memory system, exactly the slots that are in use have
memory, and the first process never exits.
-/

namespace Xv6.Task
set_option autoImplicit false
open Function (update update_self update_of_ne)
open Xv6.Sched (Slot Mem ProcState initproc)

section
variable {R : Vm.Ram} {s s' : State} {p q : Slot}

/-! ## Runs of the memory system -/

variable {addr addr1 addr2 : ℕ} {src : List UInt8} {ok : Bool} {x : Vm.Slot} {r : Ret} {l : Locals}

theorem copyTo_step (h : copyTo R p addr src s = .ok (ok, s')) :
    Vm.step R s.vm (.copyout p addr src) = .ok s'.vm := by
  obtain ⟨x, k, pt, hx, hcopy, rfl⟩ := copyTo_ok h
  simp only [Vm.step, Vm.withProc, hx, hcopy]
  rfl

theorem freeproc_step (h : freeproc R q s = .ok s') :
    Vm.step R s.vm (.freeproc q) = .ok s'.vm := by
  obtain ⟨y, k, hy, hk, rfl⟩ := freeproc_ok h
  simp only [Vm.step, Vm.withProc, hy, hk]
  rfl

theorem allocproc_reachable {vm vm' : Vm.State Slot} (hvm : (Vm.sys R Slot).Reachable vm)
    (hq : vm.slot q = .unused) (h : Vm.allocproc R q vm = .ok vm') :
    (Vm.sys R Slot).Reachable vm' := by
  refine hvm.step (a := .allocproc q) ?_
  show Vm.step R vm (.allocproc q) = _
  simp only [Vm.step, hq, h]

theorem forkCopy_reachable {vm vm' : Vm.State Slot} {x y : Vm.Proc}
    (hvm : (Vm.sys R Slot).Reachable vm) (hx : vm.running p = some x) (hy : vm.slot q = .fresh y)
    (h : Vm.forkCopy R p q x y vm = .ok vm') : (Vm.sys R Slot).Reachable vm' := by
  refine hvm.step (a := .fork p q) ?_
  show Vm.step R vm (.fork p q) = _
  simp only [Vm.step, Vm.withProc, hx, hy, h]

/-! ## The invariant -/

structure Inv (R : Vm.Ram) (s : State) : Prop where
  vm : (Vm.sys R Slot).Reachable s.vm
  kinds : ∀ q, Matches (s.mem.proc q).state (s.vm.slot q)
  init : Active (s.mem.proc initproc).state

theorem Active.matches {st st' : ProcState} (h : Matches st x) (hst : Active st)
    (hst' : Active st') :
    Matches st' x := by
  have hne : ∀ {st : ProcState}, Active st → st ≠ .unused ∧ st ≠ .used := by
    rintro st (rfl | rfl | rfl) <;> decide
  rcases h with ⟨rfl, -⟩ | ⟨-, -, hk⟩
  · exact absurd rfl (hne hst).1
  · exact Or.inr ⟨(hne hst').1, (hne hst').2, hk⟩

theorem Matches.live {st : ProcState} (h : Matches st x) (hst : st ≠ .unused) : kind x = .live := by
  rcases h with ⟨rfl, -⟩ | ⟨-, -, hk⟩
  · exact absurd rfl hst
  · exact hk

theorem Matches.unused (h : Matches .unused x) : x = .unused := by
  rcases h with ⟨-, hk⟩ | ⟨hne, -⟩
  · cases x with
    | unused => rfl
    | fresh y => cases hk
    | live y => cases hk
  · exact absurd rfl hne

theorem copyTo_table (h : copyTo R p addr src s = .ok (ok, s')) : s' = { s with vm := s'.vm } ∧
      ∀ q, kind (s'.vm.slot q) = kind (s.vm.slot q) := by
  obtain ⟨x, k, pt, hx, -, rfl⟩ := copyTo_ok h
  exact ⟨rfl, kind_setSlot_live hx⟩

theorem Inv.copyTo (hinv : Inv R s) (h : copyTo R p addr src s = .ok (ok, s')) : Inv R s' := by
  obtain ⟨heq, hkind⟩ := copyTo_table h
  have hmem : s'.mem = s.mem := by rw [heq]
  refine ⟨hinv.vm.step (copyTo_step h), fun q => ?_, by rw [hmem]; exact hinv.init⟩
  rw [Matches, hkind, hmem]
  exact hinv.kinds q

theorem Inv.freeproc (hinv : Inv R s) (hq : q ≠ initproc) (h : freeproc R q s = .ok s') :
    Inv R s' := by
  refine ⟨hinv.vm.step (freeproc_step h), ?_, ?_⟩
  all_goals obtain ⟨y, k, -, -, rfl⟩ := freeproc_ok h
  · intro r
    by_cases hr : r = q
    · subst hr
      refine Or.inl ⟨?_, ?_⟩
      · simp [freeFields, State.setExtra, Sched.freeproc]
      · simp [freeFields, State.setExtra, Vm.State.setSlot, kind]
    · have := hinv.kinds r
      simpa [freeFields, State.setExtra, Sched.freeproc, Vm.State.setSlot, hr] using this
  · have := hinv.init
    simpa [freeFields, State.setExtra, Sched.freeproc, Ne.symm hq] using this

theorem Inv.ne_init (hinv : Inv R s) (hq : (s.mem.proc q).state = .zombie) : q ≠ initproc := by
  rintro rfl
  have := hinv.init
  rw [hq] at this
  exact absurd this (by decide)

theorem copyStatus_cases (h : copyStatus R p q addr s = .ok (ok, s')) :
    addr ≠ 0 ∧ copyTo R p addr (intBytes (s.mem.proc q).xstate) s = .ok (ok, s') ∨
      addr = 0 ∧ ok = true ∧ s' = s := by
  unfold copyStatus at h
  split at h
  · next haddr => exact Or.inl ⟨haddr, h⟩
  · next haddr =>
    cases h
    exact Or.inr ⟨by simpa using haddr, rfl, rfl⟩

theorem copyStatus_table (h : copyStatus R p q addr s = .ok (ok, s')) :
    s' = { s with vm := s'.vm } := by
  rcases copyStatus_cases h with ⟨-, hcopy⟩ | ⟨-, -, rfl⟩
  · exact (copyTo_table hcopy).1
  · rfl

theorem Inv.copyStatus (hinv : Inv R s) (h : copyStatus R p q addr s = .ok (ok, s')) :
    Inv R s' := by
  rcases copyStatus_cases h with ⟨-, hcopy⟩ | ⟨-, -, rfl⟩
  · exact hinv.copyTo hcopy
  · exact hinv

theorem Inv.waitFound {pid : Option ℕ} (hinv : Inv R s) (hq : (s.mem.proc q).state = .zombie)
    (h : waitFound R p q addr s = .ok (pid, s')) : Inv R s' := by
  obtain ⟨ok, s1, hcopy, ⟨-, -, rfl⟩ | ⟨-, -, hfree⟩⟩ := waitFound_ok h
  · exact hinv.copyStatus hcopy
  · exact (hinv.copyStatus hcopy).freeproc (hinv.ne_init hq) hfree

theorem Inv.wait (hinv : Inv R s) (h : wait R p addr s = .ok (r, s')) : Inv R s' := by
  unfold Xv6.Task.wait at h
  split at h
  · next q hq =>
    obtain ⟨⟨pid, s1⟩, hfound, h⟩ := Outcome.bind_eq_ok h
    cases h
    exact hinv.waitFound (findZombie_some hq).2 hfound
  · cases h
    exact hinv

theorem Inv.waitx {l' : Locals} (hinv : Inv R s) (h : waitx R p addr l s = .ok (r, l', s')) :
    Inv R s' := by
  unfold Xv6.Task.waitx at h
  split at h
  · next q hq =>
    obtain ⟨⟨pid, s1⟩, hfound, h⟩ := Outcome.bind_eq_ok h
    cases h
    exact hinv.waitFound (findZombie_some hq).2 hfound
  · cases h
    exact hinv

/-- The three parts of `sys_waitx` that returns: `waitx` and the two copies. -/
inductive WaitxCopies (R : Vm.Ram) (p : Slot) (addr1 addr2 : ℕ) (l : Locals) (ret : Option ℕ)
    (s : State) : Option ℕ → State → Prop
  | first {s' : State} (h₁ : copyTo R p addr1 (uintBytes l.wtime) s = .ok (false, s')) :
      WaitxCopies R p addr1 addr2 l ret s none s'
  | second {s₁ s' : State} (h₁ : copyTo R p addr1 (uintBytes l.wtime) s = .ok (true, s₁))
      (h₂ : copyTo R p addr2 (uintBytes l.rtime) s₁ = .ok (false, s')) :
      WaitxCopies R p addr1 addr2 l ret s none s'
  | both {s₁ s' : State} (h₁ : copyTo R p addr1 (uintBytes l.wtime) s = .ok (true, s₁))
      (h₂ : copyTo R p addr2 (uintBytes l.rtime) s₁ = .ok (true, s')) :
      WaitxCopies R p addr1 addr2 l ret s ret s'

theorem sysWaitx_ok (h : sysWaitx R p addr addr1 addr2 l s = .ok (r, s')) :
    ∃ r0 l' s1, waitx R p addr l s = .ok (r0, l', s1) ∧
      (r0 = .asleep ∧ r = .asleep ∧ s' = s1 ∨
        ∃ ret ret', r0 = .done ret ∧ r = .done ret' ∧
          WaitxCopies R p addr1 addr2 l' ret s1 ret' s') := by
  obtain ⟨⟨r0, l', s1⟩, hwait, h⟩ := Outcome.bind_eq_ok h
  refine ⟨r0, l', s1, hwait, ?_⟩
  cases r0 with
  | asleep =>
    cases h
    exact Or.inl ⟨rfl, rfl, rfl⟩
  | done ret =>
    obtain ⟨⟨ok1, s2⟩, h1, h⟩ := Outcome.bind_eq_ok h
    cases ok1 with
    | false =>
      cases h
      exact Or.inr ⟨ret, none, rfl, rfl, .first h1⟩
    | true =>
      obtain ⟨⟨ok2, s3⟩, h2, h⟩ := Outcome.bind_eq_ok h
      cases ok2 with
      | false =>
        cases h
        exact Or.inr ⟨ret, none, rfl, rfl, .second h1 h2⟩
      | true =>
        cases h
        exact Or.inr ⟨ret, ret, rfl, rfl, .both h1 h2⟩

theorem WaitxCopies.table {ret ret' : Option ℕ} (h : WaitxCopies R p addr1 addr2 l ret s ret' s') :
    s' = { s with vm := s'.vm } := by
  cases h with
  | first h1 => exact (copyTo_table h1).1
  | second h1 h2 | both h1 h2 => rw [(copyTo_table h2).1, (copyTo_table h1).1]

theorem Inv.waitxCopies {ret ret' : Option ℕ} (hinv : Inv R s)
    (h : WaitxCopies R p addr1 addr2 l ret s ret' s') : Inv R s' := by
  cases h with
  | first h1 => exact hinv.copyTo h1
  | second h1 h2 => exact (hinv.copyTo h1).copyTo h2
  | both h1 h2 => exact (hinv.copyTo h1).copyTo h2

theorem Inv.sysWaitx (hinv : Inv R s) (h : sysWaitx R p addr addr1 addr2 l s = .ok (r, s')) :
    Inv R s' := by
  obtain ⟨r0, l', s1, hwait, ⟨-, -, rfl⟩ | ⟨ret, ret', -, -, hcopies⟩⟩ := sysWaitx_ok h
  · exact hinv.waitx hwait
  · exact (hinv.waitx hwait).waitxCopies hcopies

/-! ## `fork` and `exit` -/

theorem allocated_of_ne (vm : Vm.State Slot) {r : Slot} (hr : r ≠ q) :
    (allocated q vm s).mem.proc r = s.mem.proc r := by
  simp [allocated, allocEnd, allocBegin, State.setMem, State.setExtra, hr]

theorem Inv.unused_slot (hinv : Inv R s) (hq : findUnused s.mem = some q) :
    s.vm.slot q = .unused := by
  have := hinv.kinds q
  rw [findUnused_some hq] at this
  exact this.unused

theorem Inv.copied (hinv : Inv R s) {x y : Vm.Proc} {vm vm' : Vm.State Slot}
    (hq : findUnused s.mem = some q) (hx : s.vm.running p = some x)
    (halloc : Vm.allocproc R q s.vm = .ok vm)
    (hslot : vm.slot = update s.vm.slot q (.fresh y))
    (hcopy : Vm.forkCopy R p q x y vm = .ok vm') :
    (Vm.sys R Slot).Reachable vm ∧ (Vm.sys R Slot).Reachable vm' ∧ p ≠ q ∧
      vm.running p = some x ∧ vm.slot q = .fresh y ∧
      ∀ r, r ≠ q → kind (vm'.slot r) = kind (s.vm.slot r) := by
  have hvm := allocproc_reachable hinv.vm (hinv.unused_slot hq) halloc
  have hpq : p ≠ q := by
    rintro rfl
    have := running_kind hx
    rw [hinv.unused_slot hq] at this
    cases this
  have hx' : vm.running p = some x := by
    rw [Vm.running_eq_some, hslot, update_of_ne hpq]
    exact Vm.running_eq_some.mp hx
  have hy : vm.slot q = .fresh y := by rw [hslot, update_self]
  obtain ⟨pt, z, hslots, -⟩ := vm_forkCopy_slot hcopy
  refine ⟨hvm, forkCopy_reachable hvm hx' hy hcopy, hpq, hx', hy, fun r hr => ?_⟩
  rw [hslots, update_of_ne hr]
  by_cases hrp : r = p
  · subst hrp
    rw [update_self, running_kind hx]
    rfl
  · rw [update_of_ne hrp, hslot, update_of_ne hr]

theorem Inv.forked {r : Option ℕ} (hinv : Inv R s) (h : Forked R p s r s') : Inv R s' := by
  have hinit : ∀ {q}, findUnused s.mem = some q → q ≠ initproc := by
    rintro q hq rfl
    have := hinv.init
    rw [findUnused_some hq] at this
    exact absurd this (by decide)
  cases h with
  | full => exact hinv
  | noMemory q vm hq halloc hslot =>
    refine ⟨allocproc_reachable hinv.vm (hinv.unused_slot hq) halloc, fun r => ?_, ?_⟩
    · show Matches _ (vm.slot r)
      rw [hslot]
      by_cases hr : r = q
      · subst hr
        rw [hinv.unused_slot hq]
        exact Or.inl ⟨by simp [freeFields, State.setExtra, Sched.freeproc], rfl⟩
      · simpa [freeFields, allocBegin, State.setExtra, Sched.freeproc, hr] using hinv.kinds r
    · simpa [freeFields, allocBegin, State.setExtra, Sched.freeproc, Ne.symm (hinit hq)]
        using hinv.init
  | noCopy q x y vm vm' hq hx halloc hslot hcopy hslot' =>
    obtain ⟨-, hvm, -, -, -, hkind⟩ := hinv.copied hq hx halloc hslot hcopy
    have hproc : ∀ r, r ≠ q → (freeFields q { allocated q vm s with vm := vm' }).mem.proc r =
        s.mem.proc r := by
      intro r hr
      refine Eq.trans ?_ (allocated_of_ne vm hr)
      simp [freeFields, State.setExtra, Sched.freeproc, hr]
    refine ⟨hvm, fun r => ?_, ?_⟩
    · show Matches _ (vm'.slot r)
      by_cases hr : r = q
      · subst hr
        rw [hslot']
        exact Or.inl ⟨by simp [freeFields, State.setExtra, Sched.freeproc], rfl⟩
      · rw [Matches, hkind r hr, hproc r hr]
        exact hinv.kinds r
    · rw [hproc _ (Ne.symm (hinit hq))]
      exact hinv.init
  | child q x y z vm vm' hq hx halloc hslot hcopy hslot' =>
    obtain ⟨-, hvm, -, -, -, hkind⟩ := hinv.copied hq hx halloc hslot hcopy
    have hproc : ∀ r, r ≠ q → (forkEnd p q { allocated q vm s with vm := vm' }).mem.proc r =
        s.mem.proc r := by
      intro r hr
      refine Eq.trans ?_ (allocated_of_ne vm hr)
      simp [forkEnd, State.setMem, State.setExtra, hr]
    refine ⟨hvm, fun r => ?_, ?_⟩
    · show Matches _ (vm'.slot r)
      by_cases hr : r = q
      · subst hr
        rw [hslot']
        refine Or.inr ⟨?_, ?_, rfl⟩ <;> simp [forkEnd, State.setMem, State.setExtra]
      · rw [Matches, hkind r hr, hproc r hr]
        exact hinv.kinds r
    · rw [hproc _ (Ne.symm (hinit hq))]
      exact hinv.init

theorem Inv.exit {status : ℤ} {file inode : ℕ → ℤ} (hinv : Inv R s)
    (hp : (s.mem.proc p).state = .running) (h : exit p status file inode s = .ok s') :
    Inv R s' := by
  unfold Xv6.Task.exit at h
  split at h
  · cases h
  next hne =>
  cases h
  have hstate : ∀ r, ((reparent p s.mem).proc r).state = (s.mem.proc r).state := by
    intro r
    simp only [reparent]
    split <;> rfl
  refine ⟨hinv.vm, fun r => ?_, ?_⟩
  · by_cases hr : r = p
    · subst hr
      have hk := (hinv.kinds r).live (by rw [hp]; decide)
      exact Or.inr ⟨by simp [State.setExtra, State.setMem],
        by simp [State.setExtra, State.setMem], hk⟩
    · simpa [State.setExtra, State.setMem, hr, hstate] using hinv.kinds r
  · simpa [State.setExtra, State.setMem, Ne.symm hne, hstate] using hinv.init

/-! ## Every step -/

theorem Inv.step {e : Event} (hinv : Inv R s) (h : step R s e = .ok s') : Inv R s' := by
  cases step_stepped h with
  | tick => exact ⟨hinv.vm, hinv.kinds, hinv.init⟩
  | visit hv =>
    have hstate : ∀ (q r : Slot), ((Sched.updateTime q s.mem).proc r).state =
        (s.mem.proc r).state := fun q r => Sched.Mem.set_state _ _ (fun _ => by rfl) r
    refine ⟨hinv.vm, fun q => ?_, ?_⟩
    · simpa [updateTime, State.setExtra, hstate] using hinv.kinds q
    · simpa [updateTime, State.setExtra, hstate] using hinv.init
  | fork _ hfork => exact hinv.forked (fork_forked hinv.kinds hfork)
  | exit hrun hexit => exact hinv.exit hrun hexit
  | wait _ hwait => exact hinv.wait hwait
  | waitx _ hwait => exact hinv.sysWaitx hwait
  | @setPriority p priority pid _ =>
    have hstate : ∀ r, ((setPriority p priority pid s).mem.proc r).state =
        (s.mem.proc r).state := by
      intro r
      rw [setPriority, Sched.setStaticPriority_eq]
      dsimp only
      split
      · rw [Sched.changePriority, Sched.Mem.set_state]
        exact fun _ => rfl
      · rfl
    refine ⟨hinv.vm, fun q => ?_, by rw [hstate]; exact hinv.init⟩
    rw [hstate]
    exact hinv.kinds q
  | memory he hvm =>
    refine ⟨hinv.vm.step hvm, fun q => ?_, hinv.init⟩
    rw [Matches, kind_of_plain hinv.vm he hvm]
    exact hinv.kinds q
  | @fields q x hx =>
    have hkept : ∀ r, ((s.setMem q fun _ => x).mem.proc r).state = (s.mem.proc r).state ∨
        Active (s.mem.proc r).state ∧ Active ((s.setMem q fun _ => x).mem.proc r).state := by
      intro r
      by_cases hr : r = q
      · subst hr
        simpa [State.setMem] using hx.1
      · left
        simp [State.setMem, hr]
    refine ⟨hinv.vm, fun r => ?_, ?_⟩
    · rcases hkept r with h | ⟨h, h'⟩
      · rw [h]
        exact hinv.kinds r
      · exact h.matches (hinv.kinds r) h'
    · rcases hkept initproc with h | ⟨-, h'⟩
      · rw [h]
        exact hinv.init
      · exact h'
  | files =>
    exact ⟨hinv.vm, hinv.kinds, hinv.init⟩

theorem Inv.booted (h : Booted R s) : Inv R s := by
  obtain ⟨⟨data, n, initcode, hboot, hoom⟩, hmem, -⟩ := h
  have hb : Vm.Booted R s.vm := ⟨data, n, initproc, initcode, hboot, hoom⟩
  refine ⟨.init hb, fun q => ?_, ?_⟩
  · have hview := congrFun (Vm.boot_first hboot hoom).2 q
    have hk : kind (s.vm.slot q) = viewKind (s.vm.view q) := (viewKind_view _ _).symm
    rw [Matches, hk, hview, hmem]
    by_cases hq : q = initproc
    · subst hq
      exact Or.inr ⟨by decide, by decide, by simp [viewKind]⟩
    · refine Or.inl ⟨?_, by simp [viewKind, hq]⟩
      simp [Sched.bootMem, Sched.Proc.zero, hq]
  · rw [hmem]
    decide

theorem reachable_inv (hs : (sys R).Reachable s) : Inv R s :=
  hs.invariant (fun _ h => Inv.booted h) fun _ _ _ hinv h => hinv.step h

end
end Xv6.Task
