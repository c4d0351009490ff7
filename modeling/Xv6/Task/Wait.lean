import Xv6.Task.Inv
import Xv6.Vm.Roundtrip

/-! # What `wait` and `waitx` leave to user space

`wait` copies the status out before it frees the child. `sys_waitx` copies the times out after
`waitx` has freed the child, whatever `waitx` has returned.
-/

namespace Xv6.Task
set_option autoImplicit false
open Xv6.Sched (Slot initproc)
open Xv6.Vm (PGSIZE Space)
open PageRange

section
variable {R : Vm.Ram} {s s' : State} {p q : Slot} {x : Vm.Proc} {addr : ℕ} {src : List UInt8}
  {ok : Bool}

/-! ## Copies to user memory -/

def userSpace (s : State) (p : Slot) : Space := (s.vm.view p).space

/-- Every page of the `len` bytes at `addr` is accessible to process `p`. -/
def Accessible (s : State) (p : Slot) (addr len : ℕ) : Prop :=
  ∀ v, Touches PGSIZE addr len v → (userSpace s p).User v

theorem Inv.pt_ok (hinv : Inv R s) (hx : s.vm.running p = some x) :
    Vm.PtOk x.pt (Vm.pgroundup x.sz) :=
  (Vm.reachable_inv hinv.vm).live_ok (Vm.running_eq_some.mp hx).1

theorem userSpace_eq (hx : s.vm.running p = some x) :
    userSpace s p = x.pt.space s.vm.kmem := by
  rw [userSpace, Vm.State.view, (Vm.running_eq_some.mp hx).1]
  rfl

section
variable (hinv : Inv R s)
include hinv

theorem Inv.user_iff (hx : s.vm.running p = some x) {v : ℕ} :
    x.pt.User v ↔ (userSpace s p).User v := by
  rw [userSpace_eq hx]
  exact (hinv.pt_ok hx).user_iff
    ((Vm.reachable_inv hinv.vm).exact_live (Vm.running_eq_some.mp hx).1)

theorem Inv.userRange_iff (hx : s.vm.running p = some x) {len : ℕ} :
    x.pt.UserRange addr len ↔ Accessible s p addr len :=
  forall₂_congr fun _ _ => hinv.user_iff hx

theorem Inv.load_eq (q : Slot) (va : ℕ) : s.vm.load q va = (userSpace s q).load va :=
  (Vm.reachable_inv hinv.vm).load_eq q va

theorem copyTo_ok_iff (h : copyTo R p addr src s = .ok (ok, s')) :
    ok = true ↔ Accessible s p addr src.length := by
  obtain ⟨x, k, pt, hx, hcopy, rfl⟩ := copyTo_ok h
  rw [← hinv.userRange_iff hx]
  exact (Vm.reachable_inv hinv.vm).copyout_ok_iff (Vm.running_eq_some.mp hx).1 hcopy

theorem copyTo_space (h : copyTo R p addr src s = .ok (ok, s')) :
    userSpace s' p = ((userSpace s p).copyout addr src).2 ∧
      ∀ q, q ≠ p → userSpace s' q = userSpace s q := by
  obtain ⟨x, -, -, hx, -, -⟩ := copyTo_ok h
  obtain ⟨-, _, _, hview, -⟩ :=
    (Vm.step_ensures (Vm.reachable_inv hinv.vm) _).of_ok (copyTo_step h)
  have hlive : s.vm.view p = .live (x.view s.vm.kmem) := by
    rw [Vm.State.view, (Vm.running_eq_some.mp hx).1, Vm.Slot.view]
  simp only [Vm.spaceStep, Vm.onProc, hlive] at hview
  refine ⟨?_, fun q hq => ?_⟩
  · rw [userSpace, userSpace, hview, Function.update_self, hlive]
    rfl
  · rw [userSpace, userSpace, hview, Function.update_of_ne hq]

theorem freeproc_space (h : freeproc R q s = .ok s') (hpq : p ≠ q) :
    userSpace s' p = userSpace s p := by
  obtain ⟨-, _, _, hview, -⟩ :=
    (Vm.step_ensures (Vm.reachable_inv hinv.vm) _).of_ok (freeproc_step h)
  simp only [Vm.spaceStep] at hview
  rw [userSpace, userSpace, hview, Function.update_of_ne hpq]

theorem copyTo_accessible (h : copyTo R p addr src s = .ok (ok, s')) {a n : ℕ} :
    Accessible s' p a n ↔ Accessible s p a n := by
  obtain ⟨hspace, -⟩ := copyTo_space hinv h
  apply forall₂_congr
  intro v _
  rw [hspace]
  exact (Space.copyoutLoop_patched src.length).user v

end

/-! ## Reaping -/

/-- The entries of the children of `p` are as before. -/
def Unreaped (p : Slot) (s s' : State) : Prop :=
  ∀ q, (s.mem.proc q).parent = some p → s'.mem.proc q = s.mem.proc q

theorem Unreaped.of_table (h : s' = { s with vm := s'.vm }) : Unreaped p s s' := by
  intro q _
  rw [h]

/-- How `waitx` returns: nothing is found, the status cannot be copied, or the child is freed. -/
inductive WaitxReturns (R : Vm.Ram) (p : Slot) (addr : ℕ) (l : Locals) (s : State) :
    Option ℕ → Locals → State → Prop
  | nothing (hnone : findZombie s.mem p = none) : WaitxReturns R p addr l s none l s
  | noCopy {q : Slot} {s' : State} (hq : findZombie s.mem p = some q) (haddr : addr ≠ 0)
      (hbad : ¬ Accessible s p addr 4) (htable : s' = { s with vm := s'.vm }) :
      WaitxReturns R p addr l s none (reported s q) s'
  | reaped {q : Slot} {s₁ s' : State} (hq : findZombie s.mem p = some q)
      (haddr : addr ≠ 0 → Accessible s p addr 4) (htable : s₁ = { s with vm := s₁.vm })
      (hfree : freeproc R q s₁ = .ok s')
      (hspace : ∀ a n, Accessible s' p a n ↔ Accessible s p a n) :
      WaitxReturns R p addr l s (some (s.mem.proc q).pid) (reported s q) s'

theorem waitx_returns {l l' : Locals} {ret : Option ℕ} (hinv : Inv R s)
    (hrun : (s.mem.proc p).state = .running)
    (h : waitx R p addr l s = .ok (.done ret, l', s')) : WaitxReturns R p addr l s ret l' s' := by
  unfold waitx at h
  split at h
  · next q hq =>
    obtain ⟨⟨pid, s2⟩, hfound, h⟩ := Outcome.bind_eq_ok h
    cases h
    obtain ⟨ok, s1, hstatus, hcase⟩ := waitFound_ok hfound
    have htable := copyStatus_table hstatus
    have hinv1 := hinv.copyStatus hstatus
    have hpq : p ≠ q := by
      rintro rfl
      rw [(findZombie_some hq).2] at hrun
      cases hrun
    have hcopy := copyStatus_cases hstatus
    rcases hcase with ⟨rfl, rfl, rfl⟩ | ⟨rfl, rfl, hfree⟩
    · obtain ⟨haddr, hcopy⟩ | ⟨-, hok, -⟩ := hcopy
      · have hok := copyTo_ok_iff hinv hcopy
        exact .noCopy hq haddr (fun hacc => absurd (hok.mpr hacc) (by simp)) htable
      · cases hok
    · rw [show (s1.mem.proc q).pid = (s.mem.proc q).pid by rw [htable]]
      have hfreed : ∀ a n, Accessible s' p a n ↔ Accessible s1 p a n := by
        intro a n
        rw [Accessible, freeproc_space hinv1 hfree hpq, ← Accessible]
      obtain ⟨haddr, hcopy⟩ | ⟨haddr, -, rfl⟩ := hcopy
      · have hok := copyTo_ok_iff hinv hcopy
        exact .reaped hq (fun _ => hok.mp rfl) htable hfree
          fun a n => (hfreed a n).trans (copyTo_accessible hinv hcopy)
      · exact .reaped hq (fun h => absurd haddr h) htable hfree hfreed
  · next hnone =>
    obtain ⟨hret, heq⟩ := Prod.mk.inj (Outcome.ok.inj h)
    cases heq
    unfold waitNone at hret
    split at hret
    · cases hret
      exact .nothing hnone
    · cases hret

@[simp] theorem length_intBytes (n : ℤ) : (intBytes n).length = 4 := by simp [intBytes]

@[simp] theorem length_uintBytes (n : UInt32) : (uintBytes n).length = 4 := length_intBytes _

/-- `sys_waitx` returns what `waitx` has returned if both times can be copied, and -1 otherwise. -/
theorem WaitxCopies.ret_eq {addr1 addr2 : ℕ} {l : Locals} {ret ret' : Option ℕ} (hinv : Inv R s)
    (h : WaitxCopies R p addr1 addr2 l ret s ret' s') :
    Accessible s p addr1 4 ∧ Accessible s p addr2 4 ∧ ret' = ret ∨
      ¬ (Accessible s p addr1 4 ∧ Accessible s p addr2 4) ∧ ret' = none := by
  cases h with
  | first h1 =>
    have hok := copyTo_ok_iff hinv h1
    rw [length_uintBytes] at hok
    exact .inr ⟨fun hacc => absurd (hok.mpr hacc.1) (by simp), rfl⟩
  | second h1 h2 =>
    have hok := copyTo_ok_iff (hinv.copyTo h1) h2
    rw [length_uintBytes, copyTo_accessible hinv h1] at hok
    exact .inr ⟨fun hacc => absurd (hok.mpr hacc.2) (by simp), rfl⟩
  | both h1 h2 =>
    have hok1 := copyTo_ok_iff hinv h1
    have hok2 := copyTo_ok_iff (hinv.copyTo h1) h2
    rw [length_uintBytes] at hok1
    rw [length_uintBytes, copyTo_accessible hinv h1] at hok2
    exact .inl ⟨hok1.mp rfl, hok2.mp rfl, rfl⟩

theorem not_unreaped {s1 s2 : State} (hq : findZombie s.mem p = some q)
    (hfree : freeproc R q s1 = .ok s2) (htable : s' = { s2 with vm := s'.vm }) :
    ¬ Unreaped p s s' := by
  intro hun
  obtain ⟨hparent, hstate⟩ := findZombie_some hq
  have hsame := congrArg Sched.Proc.state (hun q hparent)
  obtain ⟨y, k, -, -, rfl⟩ := freeproc_ok hfree
  rw [htable, hstate] at hsame
  simp [freeFields, Sched.freeproc] at hsame

/-- A failing `wait` reaps nothing. A failing `waitx` reaps nothing exactly if it has found no
exited child, or the status could not be copied, or both addresses for the times are accessible. -/
theorem failing_wait_reaps_nothing_iff (hs : (sys R).Reachable s)
    (hrun : (s.mem.proc p).state = .running) (hx : s.vm.running p = some x)
    (addr addr1 addr2 : ℕ) (l : Locals) :
    (∀ s', wait R p addr s = .ok (.done none, s') → Unreaped p s s') ∧
    ∀ ret s', sysWaitx R p addr addr1 addr2 l s = .ok (.done ret, s') →
      ((ret = none → Unreaped p s s') ↔
        findZombie s.mem p = none ∨ addr ≠ 0 ∧ ¬ x.pt.UserRange addr 4 ∨
          x.pt.UserRange addr1 4 ∧ x.pt.UserRange addr2 4) := by
  have hinv := reachable_inv hs
  constructor
  · intro s' h
    unfold wait at h
    split at h
    · obtain ⟨⟨pid, s2⟩, hfound, h⟩ := Outcome.bind_eq_ok h
      cases h
      obtain ⟨ok, s1, hstatus, ⟨-, -, rfl⟩ | ⟨-, hpid, -⟩⟩ := waitFound_ok hfound
      · exact .of_table (copyStatus_table hstatus)
      · cases hpid
    · obtain ⟨-, rfl⟩ := Prod.mk.inj (Outcome.ok.inj h)
      exact .of_table rfl
  · intro ret s' h
    simp only [hinv.userRange_iff hx]
    obtain ⟨r0, l', s1, hwaitx, ⟨-, hr, -⟩ | ⟨ret0, ret', rfl, hr, hcopies⟩⟩ := sysWaitx_ok h
    · cases hr
    cases hr
    have hinv1 := hinv.waitx hwaitx
    have htable := hcopies.table
    have hret := hcopies.ret_eq hinv1
    cases waitx_returns hinv hrun hwaitx with
    | nothing hnone => exact iff_of_true (fun _ => .of_table htable) (.inl hnone)
    | noCopy hq haddr hbad htable1 =>
      refine iff_of_true (fun _ => .of_table ?_) (.inr (.inl ⟨haddr, hbad⟩))
      rw [htable, htable1]
    | reaped hq haddr htable1 hfree hspace =>
      rw [hspace, hspace] at hret
      rcases hret with ⟨h1, h2, rfl⟩ | ⟨hnot, rfl⟩
      · exact iff_of_true (fun hnone => by cases hnone) (.inr (.inr ⟨h1, h2⟩))
      · refine iff_of_false (fun hun => not_unreaped hq hfree htable (hun rfl)) ?_
        rintro (hnone | ⟨hne, hbad⟩ | hboth)
        · rw [hnone] at hq
          cases hq
        · exact hbad (haddr hne)
        · exact hnot hboth

end

theorem exited_child : ∃ (s s' : State) (x : Vm.Proc), (sys Vm.smallRam).Reachable s ∧
    (s.mem.proc initproc).state = .running ∧ s.vm.running initproc = some x ∧
    findZombie s.mem initproc = some firstChild ∧
    sysWaitx Vm.smallRam initproc 0 (2 ^ 38) 0 ⟨0, 0⟩ s = .ok (.done none, s') ∧
    (s'.mem.proc firstChild).state = .unused := by
  have hrun : (runFrom Vm.smallRam [dispatch initproc, fun _ => .fork initproc,
      dispatch firstChild, fun _ => .exit firstChild 7 (fun _ => 0) fun _ => 0]).bind (fun s =>
        (sysWaitx Vm.smallRam initproc 0 (2 ^ 38) 0 ⟨0, 0⟩ s).result.map fun r =>
          decide ((s.mem.proc initproc).state = .running ∧ (s.vm.running initproc).isSome = true ∧
            findZombie s.mem initproc = some firstChild ∧ r.1 = .done none ∧
            (r.2.mem.proc firstChild).state = .unused)) = some true := by decide +kernel
  obtain ⟨s, hs, hres⟩ := Option.bind_eq_some_iff.mp hrun
  obtain ⟨⟨r, s'⟩, hres, htest⟩ := Option.map_eq_some_iff.mp hres
  obtain ⟨hstate, hx, hz, hr, hfreed⟩ := of_decide_eq_true htest
  obtain ⟨x, hx⟩ := Option.isSome_iff_exists.mp hx
  subst hr
  exact ⟨s, s', x, reachable_of_runFrom hs, hstate, hx, hz, Outcome.result_eq_some.mp hres, hfreed⟩

theorem failing_wait_reaps_nothing_iff_child : ∃ (s s' : State) (x : Vm.Proc),
    (sys Vm.smallRam).Reachable s ∧ s.vm.running initproc = some x ∧
    sysWaitx Vm.smallRam initproc 0 (2 ^ 38) 0 ⟨0, 0⟩ s = .ok (.done none, s') ∧
    ¬ Unreaped initproc s s' := by
  obtain ⟨s, s', x, hs, hrun, hx, hz, hret, -⟩ := exited_child
  have hiff := (failing_wait_reaps_nothing_iff hs hrun hx 0 (2 ^ 38) 0 ⟨0, 0⟩).2 none s' hret
  refine ⟨s, s', x, hs, hx, hret, fun hun => ?_⟩
  rcases hiff.mp fun _ => hun with hnone | ⟨hne, -⟩ | ⟨hrange, -⟩
  · rw [hz] at hnone
    cases hnone
  · exact hne rfl
  · have hlt := (hrange _ (touches_head (by decide))).1
    simp [PGSIZE, Vm.MAXVPN] at hlt

theorem waitx_loses_child : ¬ ∀ (s s' : State) (p : Slot) (addr addr1 addr2 : ℕ) (l : Locals),
    (sys Vm.smallRam).Reachable s → (s.mem.proc p).state = .running →
      sysWaitx Vm.smallRam p addr addr1 addr2 l s = .ok (.done none, s') → Unreaped p s s' := by
  intro hall
  obtain ⟨s, s', x, hs, hrun, -, hz, hret, hfreed⟩ := exited_child
  obtain ⟨hparent, hstate⟩ := findZombie_some hz
  have hsame := hall s s' initproc 0 (2 ^ 38) 0 ⟨0, 0⟩ hs hrun hret firstChild hparent
  rw [hsame, hstate] at hfreed
  cases hfreed

/-! ## The locals of `sys_waitx` -/

section
variable {R : Vm.Ram} {s t : State} {p : Slot} {x : Vm.Proc} {addr addr1 addr2 : ℕ}
  {src src' : List UInt8}

/-- Whatever its locals were before, `sys_waitx` returns the same and leaves the same bytes to every
process. -/
def LeakFree (R : Vm.Ram) (p : Slot) (addr addr1 addr2 : ℕ) (s : State) : Prop :=
  ∀ l l', ∃ ret t t', sysWaitx R p addr addr1 addr2 l s = .ok (.done ret, t) ∧
    sysWaitx R p addr addr1 addr2 l' s = .ok (.done ret, t') ∧
    ∀ q va, t.vm.load q va = t'.vm.load q va

theorem sysWaitx_of_zombie {q : Slot} (hq : findZombie s.mem p = some q) (l l' : Locals) :
    sysWaitx R p addr addr1 addr2 l s = sysWaitx R p addr addr1 addr2 l' s := by
  simp only [sysWaitx, waitx, hq]

theorem copyTo_refused (hinv : Inv R s) (hx : s.vm.running p = some x) (hsrc : src ≠ [])
    (hu : ¬ x.pt.User (addr / PGSIZE)) {r : Bool × State} (h : copyTo R p addr src' s = .ok r)
    (hlen : src.length = src'.length) :
    ∃ t, copyTo R p addr src s = .ok (false, t) ∧ ∀ q, userSpace t q = userSpace s q := by
  have hvm := Vm.reachable_inv hinv.vm
  obtain ⟨x', k, pt, hx', hcopy, -⟩ := copyTo_ok h
  obtain rfl : x' = x := by
    rw [hx] at hx'
    exact (Option.some.inj hx').symm
  obtain ⟨⟨ok, k, pt⟩, hcopy⟩ :=
    hvm.copyout_returns (Vm.running_eq_some.mp hx).1 hcopy hlen
  have h' : copyTo R p addr src s =
      .ok (ok, { s with vm := s.vm.setSlot p (.live { x' with pt := pt }) k }) := by
    simp only [copyTo, hx, hcopy]
    rfl
  obtain ⟨hspace, hother⟩ := copyTo_space hinv h'
  have hok := copyTo_ok_iff hinv h'
  rw [hinv.user_iff hx] at hu
  cases ok with
  | true =>
    have hfirst : Touches PGSIZE addr src.length (addr / PGSIZE) :=
      touches_head (List.length_pos_iff.mpr hsrc)
    exact absurd (hok.mp rfl _ hfirst) hu
  | false =>
    refine ⟨_, h', fun q => ?_⟩
    by_cases hq : q = p
    · rw [hq, hspace]
      exact Space.copyoutLoop_not_user _ hu
    · exact hother q hq

variable {c : UInt8}

theorem Inv.load_of_byte (hinv : Inv R s) {a : ℕ} (hu : (userSpace s p).User (a / PGSIZE))
    (hb : (userSpace s p).byte a = some c) : s.vm.load p a = some c := by
  rw [hinv.load_eq]
  cases hslot : s.vm.slot p with
  | live x =>
    have hok := (Vm.reachable_inv hinv.vm).live_ok hslot
    have hspace : userSpace s p = x.pt.space s.vm.kmem := by
      rw [userSpace, Vm.State.view, hslot]
      rfl
    rw [hspace] at hu hb ⊢
    rw [hok.load_eq_byte hu]
    exact hb
  | unused | fresh x =>
    obtain ⟨pg, hpg, -⟩ := hu
    rw [userSpace, Vm.State.view, hslot] at hpg
    cases hpg

theorem copyTo_byte (hinv : Inv R s) {ok : Bool}
    (h : copyTo R p addr (List.replicate 4 c) s = .ok (ok, t)) {a : ℕ}
    (hu : (userSpace s p).User (a / PGSIZE)) (ha : a = addr ∨ (userSpace s p).byte a = some c) :
    (userSpace t p).User (a / PGSIZE) ∧ (userSpace t p).byte a = some c := by
  obtain ⟨hspace, -⟩ := copyTo_space hinv h
  have hpatched : (userSpace s p).Patched (List.replicate 4 c)
      ((userSpace s p).copyout addr (List.replicate 4 c)).2 := Space.copyoutLoop_patched _
  rw [hspace]
  refine ⟨(hpatched.user _).mpr hu, ?_⟩
  rcases ha with rfl | ha
  · have hne : List.replicate 4 c ≠ [] := List.cons_ne_nil c (List.replicate 3 c)
    obtain ⟨b, hb, hbyte⟩ := Space.copyout_first hne hu
    rwa [List.eq_of_mem_replicate hb] at hbyte
  · rcases hpatched.byte a with hsame | ⟨b, hb, hbyte⟩
    · exact hsame.trans ha
    · rwa [List.eq_of_mem_replicate hb] at hbyte

section
variable (hinv : Inv R s) (hrun : (s.mem.proc p).state = .running) (hx : s.vm.running p = some x)
  (hnone : findZombie s.mem p = none)
include hinv hrun hx hnone

theorem sysWaitx_shows (hu : x.pt.User (addr1 / PGSIZE)) {w : UInt32}
    (hc : uintBytes w = List.replicate 4 c) {ret : Option ℕ}
    (h : sysWaitx R p addr addr1 addr2 ⟨w, w⟩ s = .ok (.done ret, t)) :
    t.vm.load p addr1 = some c := by
  obtain ⟨r0, l', s1, hwaitx, ⟨-, hr, -⟩ | ⟨ret0, ret', rfl, hr, hcopies⟩⟩ := sysWaitx_ok h
  · cases hr
  cases hr
  have hret := waitx_returns hinv hrun hwaitx
  generalize hl : (⟨w, w⟩ : Locals) = l at hret
  cases hret with
  | noCopy hq | reaped hq =>
    rw [hnone] at hq
    cases hq
  | nothing =>
    subst hl
    rw [hinv.user_iff hx] at hu
    have hinv' := hinv.waitxCopies hcopies
    cases hcopies with
    | first h1 =>
      rw [hc] at h1
      obtain ⟨hu', hb⟩ := copyTo_byte hinv h1 hu (.inl rfl)
      exact hinv'.load_of_byte hu' hb
    | second h1 h2 | both h1 h2 =>
      have hinv1 := hinv.copyTo h1
      rw [hc] at h1 h2
      obtain ⟨hu1, hb1⟩ := copyTo_byte hinv h1 hu (.inl rfl)
      obtain ⟨hu', hb⟩ := copyTo_byte hinv1 h2 hu1 (.inr hb1)
      exact hinv'.load_of_byte hu' hb

theorem sysWaitx_refused (hu : ¬ x.pt.User (addr1 / PGSIZE)) {l : Locals} {ret : Option ℕ}
    (h : sysWaitx R p addr addr1 addr2 l s = .ok (.done ret, t)) (l' : Locals) :
    ∃ t', sysWaitx R p addr addr1 addr2 l' s = .ok (.done none, t') ∧
      ∀ q, userSpace t' q = userSpace s q := by
  -- The scan returns -1 without touching its locals, and the first copy has returned.
  obtain ⟨hdone, r, hcopy⟩ : waitNone s.mem p = .done none ∧
      ∃ r, copyTo R p addr1 (uintBytes l.wtime) s = .ok r := by
    obtain ⟨r0, l', s1, hwaitx, ⟨-, hr, -⟩ | ⟨ret0, ret', rfl, -, hcopies⟩⟩ := sysWaitx_ok h
    · cases hr
    have hw := hwaitx
    simp only [waitx, hnone] at hw
    obtain ⟨hdone, heq⟩ := Prod.mk.inj (Outcome.ok.inj hw)
    cases heq
    cases waitx_returns hinv hrun hwaitx with
    | noCopy hq | reaped hq =>
      rw [hnone] at hq
      cases hq
    | nothing =>
      refine ⟨hdone, ?_⟩
      cases hcopies with
      | first h1 | second h1 | both h1 => exact ⟨_, h1⟩
  have hne : uintBytes l'.wtime ≠ [] := List.length_pos_iff.mp (by simp)
  obtain ⟨t', hcopy', hspace⟩ := copyTo_refused hinv hx hne hu hcopy (by simp)
  refine ⟨t', ?_, hspace⟩
  simp only [sysWaitx, waitx, hnone, hdone]
  show copyTo R p addr1 (uintBytes l'.wtime) s >>= _ = _
  rw [hcopy']
  rfl

end

/-- A call of `waitx` that returns shows nothing of the locals of `sys_waitx` exactly if it has
found an exited child or cannot write to the first byte at `addr1`. -/
theorem waitx_leakFree_iff (hs : (sys R).Reachable s) (hrun : (s.mem.proc p).state = .running)
    (hx : s.vm.running p = some x) {l : Locals} {ret : Option ℕ}
    (hret : sysWaitx R p addr addr1 addr2 l s = .ok (.done ret, t)) :
    LeakFree R p addr addr1 addr2 s ↔
      findZombie s.mem p ≠ none ∨ ¬ x.pt.User (addr1 / PGSIZE) := by
  have hinv := reachable_inv hs
  constructor
  · intro hfree
    by_contra hcon
    rw [not_or, not_not, not_not] at hcon
    obtain ⟨hnone, hu⟩ := hcon
    obtain ⟨ret, t, t', h, h', hload⟩ := hfree ⟨0, 0⟩ ⟨0xffffffff, 0xffffffff⟩
    have h0 := sysWaitx_shows hinv hrun hx hnone hu (c := 0) (by decide) h
    have h1 := sysWaitx_shows hinv hrun hx hnone hu (c := 255) (by decide) h'
    rw [hload, h1] at h0
    revert h0
    decide
  · intro hcond l1 l2
    cases hz : findZombie s.mem p with
    | some q =>
      rw [sysWaitx_of_zombie hz l] at hret
      exact ⟨ret, t, t, hret, by rw [sysWaitx_of_zombie hz l2 l1, hret], fun _ _ => rfl⟩
    | none =>
      have hu : ¬ x.pt.User (addr1 / PGSIZE) := hcond.resolve_left (not_not.mpr hz)
      obtain ⟨t1, h₁, hspace1⟩ := sysWaitx_refused hinv hrun hx hz hu hret l1
      obtain ⟨t2, h2, hspace2⟩ := sysWaitx_refused hinv hrun hx hz hu hret l2
      refine ⟨none, t1, t2, h₁, h2, fun q va => ?_⟩
      rw [(hinv.sysWaitx h₁).load_eq, (hinv.sysWaitx h2).load_eq, hspace1, hspace2]

end

theorem waitx_leakFree_iff_child : ∃ s s' : State, (sys Vm.smallRam).Reachable s ∧
    sysWaitx Vm.smallRam initproc 0 (2 ^ 38) 0 ⟨0, 0⟩ s = .ok (.done none, s') ∧
    LeakFree Vm.smallRam initproc 0 (2 ^ 38) 0 s := by
  obtain ⟨s, s', x, hs, hrun, hx, hz, hret, -⟩ := exited_child
  exact ⟨s, s', hs, hret, (waitx_leakFree_iff hs hrun hx hret).mpr (.inl (by simp [hz]))⟩

/-- The first process, without children, reads the locals at address 0. -/
theorem waitx_shows_locals : ¬ ∀ (s t : State) (p : Slot) (addr addr1 addr2 : ℕ) (l : Locals)
    (ret : Option ℕ), (sys Vm.smallRam).Reachable s → (s.mem.proc p).state = .running →
      sysWaitx Vm.smallRam p addr addr1 addr2 l s = .ok (.done ret, t) →
      LeakFree Vm.smallRam p addr addr1 addr2 s := by
  intro hall
  have hrun : (runFrom Vm.smallRam [dispatch initproc]).bind (fun s =>
      (sysWaitx Vm.smallRam initproc 0 0 0 ⟨0, 0⟩ s).result.bind fun r =>
        (sysWaitx Vm.smallRam initproc 0 0 0 ⟨0xffffffff, 0xffffffff⟩ s).result.map fun r' =>
          decide ((s.mem.proc initproc).state = .running ∧ r.1 = .done none ∧
            r.2.vm.load initproc 0 = some 0 ∧ r'.2.vm.load initproc 0 = some 255)) =
      some true := by decide +kernel
  obtain ⟨s, hs, hres⟩ := Option.bind_eq_some_iff.mp hrun
  obtain ⟨⟨r, t⟩, hres, hsecond⟩ := Option.bind_eq_some_iff.mp hres
  obtain ⟨⟨r', t'⟩, hres', htest⟩ := Option.map_eq_some_iff.mp hsecond
  obtain ⟨hstate, hr, hload, hload'⟩ := of_decide_eq_true htest
  subst hr
  have hret := Outcome.result_eq_some.mp hres
  have hret' := Outcome.result_eq_some.mp hres'
  have hfree := hall s t initproc 0 0 0 ⟨0, 0⟩ none (reachable_of_runFrom hs) hstate hret
  obtain ⟨ret, u, u', hu, hu', hsame⟩ := hfree ⟨0, 0⟩ ⟨0xffffffff, 0xffffffff⟩
  rw [hret] at hu
  rw [hret'] at hu'
  cases hu
  cases hu'
  have hsame := hsame initproc 0
  rw [hload, hload'] at hsame
  revert hsame
  decide

end Xv6.Task
