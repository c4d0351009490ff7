import Xv6.Task.Inv

/-! # Running and waiting time

`waitx` computes the waiting time of a child from `etime`, `ctime` and `rtime`. Beside the kernel
there is a history that counts, for the process in each slot, at how many ticks `update_time` has
found it running and at how many it has found it not running.
-/

namespace Xv6.Task
set_option autoImplicit false
open Function (update update_self update_of_ne)
open Xv6.Sched (Slot ProcState initproc)

/-! ## The history -/

/-- The number of ticks so far and, for the process in each slot, the number of those at which it
was `RUNNING` and at which it was not. -/
structure History where
  total : ℕ
  busy : Slot → ℕ
  idle : Slot → ℕ

def History.zero : History := ⟨0, fun _ => 0, fun _ => 0⟩

def Alive (st : ProcState) : Prop := st ≠ .unused ∧ st ≠ .zombie

instance (st : ProcState) : Decidable (Alive st) := inferInstanceAs (Decidable (_ ∧ _))

def History.reset (h : History) (q : Slot) : History :=
  { h with busy := update h.busy q 0, idle := update h.idle q 0 }

def History.visit (h : History) (q : Slot) (st : ProcState) : History :=
  if st = .running then { h with busy := update h.busy q (h.busy q + 1) }
  else if Alive st then { h with idle := update h.idle q (h.idle q + 1) }
  else h

def History.record (h : History) (s : State) : Event → History
  | .tick => { h with total := h.total + 1 }
  | .visit =>
    if hv : s.visit < NPROC then h.visit ⟨s.visit, hv⟩ (s.mem.proc ⟨s.visit, hv⟩).state else h
  | .fork _ =>
    match findUnused s.mem with
    | none => h
    | some q => h.reset q
  | _ => h

def recorded (R : Vm.Ram) : TransSys (State × History) Event where
  init := fun x => Booted R x.1 ∧ x.2 = .zero
  step := fun x e x' => step R x.1 e = .ok x'.1 ∧ x'.2 = x.2.record x.1 e

/-- Between `ticks++` and the visit of `update_time` to a slot, no process is created in that slot
and the process in it does not exit. -/
def Timely (x : State × History) : Event → Prop
  | .fork _ => ∀ q, findUnused x.1.mem = some q → q.val < x.1.visit
  | .exit p _ _ _ => p.val < x.1.visit
  | _ => True

/-! ## The counters of one slot -/

/-- 1 if the last tick has not come to slot `q` yet. -/
def due (visit : ℕ) (q : Slot) : ℕ := if q.val < visit then 0 else 1

structure Accounted (s : State) (h : History) (q : Slot) : Prop where
  rtime : q ≠ initproc → (s.mem.proc q).state ≠ .unused → (s.mem.proc q).rtime.toNat = h.busy q
  alive : Alive (s.mem.proc q).state →
    (s.mem.proc q).ctime.toNat + h.busy q + h.idle q + due s.visit q = h.total
  zombie : (s.mem.proc q).state = .zombie →
    (s.extra q).etime.toNat = (s.mem.proc q).ctime.toNat + h.busy q + h.idle q

structure AccInv (s : State) (h : History) : Prop where
  ticks : s.mem.ticks.toNat = h.total
  slots : ∀ q, Accounted s h q

section
variable {R : Vm.Ram} {s s' : State} {h h' : History} {p q : Slot}

theorem Accounted.of_unused (hq : (s.mem.proc q).state = .unused) : Accounted s h q := by
  refine ⟨fun _ hne => absurd hq hne, fun ha => absurd hq ha.1, fun hz => ?_⟩
  rw [hq] at hz
  cases hz

/-- The process in slot `q` and its times are the same; it may have been scheduled. Only the first
process, which never exits, may lose its `rtime`. -/
structure SameProc (q : Slot) (x y : Sched.Proc) : Prop where
  state : y.state = x.state ∨ Active x.state ∧ Active y.state
  ctime : y.ctime = x.ctime
  rtime : q ≠ initproc → y.rtime = x.rtime

theorem SameProc.of_eq {x y : Sched.Proc} (hxy : y = x) : SameProc q x y := by
  subst hxy
  exact ⟨.inl rfl, rfl, fun _ => rfl⟩

theorem Active.alive {st : ProcState} (hst : Active st) : Alive st := by
  rcases hst with rfl | rfl | rfl <;> decide

theorem SameProc.alive_iff {x y : Sched.Proc} (hxy : SameProc q x y) :
    (y.state ≠ .unused ↔ x.state ≠ .unused) ∧ (y.state = .zombie ↔ x.state = .zombie) := by
  rcases hxy.state with heq | ⟨hx, hy⟩
  · rw [heq]
    exact ⟨Iff.rfl, Iff.rfl⟩
  · exact ⟨iff_of_true hy.alive.1 hx.alive.1, iff_of_false hy.alive.2 hx.alive.2⟩

theorem Accounted.frame (hacc : Accounted s h q) (hp : SameProc q (s.mem.proc q) (s'.mem.proc q))
    (he : (s'.extra q).etime = (s.extra q).etime) (hv : s'.visit = s.visit)
    (htotal : h'.total = h.total) (hcount : h'.busy q = h.busy q ∧ h'.idle q = h.idle q) :
    Accounted s' h' q := by
  obtain ⟨hr, ha, hz⟩ := hacc
  obtain ⟨hb, hi⟩ := hcount
  obtain ⟨hunused, hzombie⟩ := hp.alive_iff
  refine ⟨fun hinit hne => ?_, fun hal => ?_, fun hzom => ?_⟩
  · rw [hp.rtime hinit, hb]
    exact hr hinit (hunused.mp hne)
  · rw [hp.ctime, hb, hi, hv, htotal]
    exact ha ⟨hunused.mp hal.1, fun hx => hal.2 (hzombie.mpr hx)⟩
  · rw [hp.ctime, hb, hi, he]
    exact hz (hzombie.mp hzom)

/-- Each slot is as before or `UNUSED`, and the clock has not moved. -/
structure Kept (s s' : State) : Prop where
  ticks : s'.mem.ticks = s.mem.ticks
  visit : s'.visit = s.visit
  slots : ∀ q, (s'.mem.proc q).state = .unused ∨
    s'.mem.proc q = s.mem.proc q ∧ (s'.extra q).etime = (s.extra q).etime

theorem Kept.refl (s : State) : Kept s s := ⟨rfl, rfl, fun _ => .inr ⟨rfl, rfl⟩⟩

theorem Kept.trans {s₁ : State} (h : Kept s s₁) (h' : Kept s₁ s') : Kept s s' := by
  refine ⟨h'.ticks.trans h.ticks, h'.visit.trans h.visit, fun q => ?_⟩
  rcases h'.slots q with hq | ⟨hp', he'⟩
  · exact .inl hq
  · rcases h.slots q with hq | ⟨hp, he⟩
    · exact .inl (by rw [hp', hq])
    · exact .inr ⟨hp'.trans hp, he'.trans he⟩

theorem Kept.of_table (h : s' = { s with vm := s'.vm }) : Kept s s' := by
  rw [h]
  exact ⟨rfl, rfl, fun _ => .inr ⟨rfl, rfl⟩⟩

theorem AccInv.kept (hacc : AccInv s h) (hk : Kept s s') (htotal : h'.total = h.total)
    (hcount : ∀ q, (s'.mem.proc q).state ≠ .unused → h'.busy q = h.busy q ∧ h'.idle q = h.idle q) :
    AccInv s' h' := by
  refine ⟨by rw [hk.ticks, hacc.ticks, htotal], fun q => ?_⟩
  rcases hk.slots q with hq | ⟨hp, he⟩
  · exact .of_unused hq
  by_cases hq : (s'.mem.proc q).state = .unused
  · exact .of_unused hq
  · exact (hacc.slots q).frame (.of_eq hp) he hk.visit htotal (hcount q hq)

/-! ## `wait` and `waitx` -/

theorem freeproc_kept (hfree : freeproc R q s = .ok s') : Kept s s' := by
  obtain ⟨y, k, -, -, rfl⟩ := freeproc_ok hfree
  refine ⟨rfl, rfl, fun r => ?_⟩
  by_cases hr : r = q
  · left
    simp [hr, freeFields, Sched.freeproc]
  · right
    simp [hr, freeFields, Sched.freeproc]

variable {addr : ℕ} {r : Ret}

theorem waitFound_kept {pid : Option ℕ} (hf : waitFound R p q addr s = .ok (pid, s')) :
    Kept s s' := by
  obtain ⟨ok, s₁, hstatus, ⟨-, -, rfl⟩ | ⟨-, -, hfree⟩⟩ := waitFound_ok hf
  · exact .of_table (copyStatus_table hstatus)
  · exact (Kept.of_table (copyStatus_table hstatus)).trans (freeproc_kept hfree)

theorem wait_kept (hw : wait R p addr s = .ok (r, s')) : Kept s s' := by
  unfold wait at hw
  split at hw
  · obtain ⟨⟨pid, s₁⟩, hfound, hw⟩ := Outcome.bind_eq_ok hw
    cases hw
    exact waitFound_kept hfound
  · obtain ⟨-, rfl⟩ := Prod.mk.inj (Outcome.ok.inj hw)
    exact .refl s

theorem waitx_kept {l l' : Locals} (hw : waitx R p addr l s = .ok (r, l', s')) : Kept s s' := by
  unfold waitx at hw
  split at hw
  · obtain ⟨⟨pid, s₁⟩, hfound, hw⟩ := Outcome.bind_eq_ok hw
    cases hw
    exact waitFound_kept hfound
  · obtain ⟨-, heq⟩ := Prod.mk.inj (Outcome.ok.inj hw)
    cases heq
    exact .refl s

theorem sysWaitx_kept {addr1 addr2 : ℕ} {l : Locals}
    (hw : sysWaitx R p addr addr1 addr2 l s = .ok (r, s')) : Kept s s' := by
  obtain ⟨r₀, l', s₁, hwaitx, ⟨-, -, rfl⟩ | ⟨ret, ret', -, -, hcopies⟩⟩ := sysWaitx_ok hw
  · exact waitx_kept hwaitx
  · exact (waitx_kept hwaitx).trans (.of_table hcopies.table)

/-! ## The clock -/

theorem due_of_lt {visit : ℕ} (hq : q.val < visit) : due visit q = 0 := if_pos hq

theorem due_of_ge {visit : ℕ} (hq : visit ≤ q.val) : due visit q = 1 := if_neg (by omega)

theorem AccInv.tick (hacc : AccInv s h) (hv : s.visit = NPROC) (hlen : h.total + 1 < 2 ^ 32) :
    AccInv { s with mem := { s.mem with ticks := s.mem.ticks + 1 }, visit := 0 }
      { h with total := h.total + 1 } := by
  constructor
  · rw [UInt32.toNat_add, hacc.ticks]
    exact Nat.mod_eq_of_lt hlen
  · intro q
    obtain ⟨hr, ha, hz⟩ := hacc.slots q
    refine ⟨hr, fun hal => ?_, hz⟩
    have := ha hal
    rw [hv, due_of_lt q.isLt] at this
    show (s.mem.proc q).ctime.toNat + h.busy q + h.idle q + due 0 q = h.total + 1
    rw [due_of_ge (Nat.zero_le _)]
    omega

theorem History.visit_total {st : ProcState} : (h.visit q st).total = h.total := by
  unfold visit
  split_ifs <;> rfl

theorem History.visit_busy (st : ProcState) (r : Slot) :
    (h.visit q st).busy r = h.busy r + if r = q ∧ st = .running then 1 else 0 := by
  by_cases hr : r = q
  · subst hr
    unfold visit
    split_ifs <;> simp_all
  · unfold visit
    split_ifs <;> simp_all

theorem History.visit_idle (st : ProcState) (r : Slot) :
    (h.visit q st).idle r = h.idle r + if r = q ∧ st ≠ .running ∧ Alive st then 1 else 0 := by
  by_cases hr : r = q
  · subst hr
    unfold visit
    split_ifs <;> simp_all
  · unfold visit
    split_ifs <;> simp_all

theorem updateTime_state (r : Slot) :
    ((updateTime q s).mem.proc r).state = (s.mem.proc r).state := by
  by_cases hr : r = q <;> simp [updateTime, Sched.updateTime, hr]

theorem updateTime_ctime (r : Slot) :
    ((updateTime q s).mem.proc r).ctime = (s.mem.proc r).ctime := by
  by_cases hr : r = q <;> simp [updateTime, Sched.updateTime, hr]

theorem updateTime_rtime (r : Slot) : ((updateTime q s).mem.proc r).rtime =
    if r = q ∧ (s.mem.proc q).state = .running then (s.mem.proc r).rtime + 1
    else (s.mem.proc r).rtime := by
  by_cases hr : r = q <;> simp [updateTime, Sched.updateTime, hr]

theorem updateTime_etime (r : Slot) : ((updateTime q s).extra r).etime = (s.extra r).etime := by
  by_cases hr : r = q <;> simp [updateTime, hr]

theorem AccInv.visit (hacc : AccInv s h) (hlen : h.total < 2 ^ 32) (hv : s.visit = q.val) :
    AccInv { updateTime q s with visit := s.visit + 1 } (h.visit q (s.mem.proc q).state) := by
  refine ⟨by rw [History.visit_total]; exact hacc.ticks, fun r => ?_⟩
  obtain ⟨hr, ha, hz⟩ := hacc.slots r
  have hother : r ≠ q → due (s.visit + 1) r = due s.visit r := by
    intro hne
    have : r.val ≠ q.val := fun heq => hne (Fin.ext heq)
    unfold due
    split_ifs <;> omega
  have hself : due s.visit q = 1 ∧ due (s.visit + 1) q = 0 := by
    rw [hv]
    exact ⟨due_of_ge le_rfl, due_of_lt (Nat.lt_succ_self _)⟩
  refine ⟨?_, ?_, ?_⟩
  · show r ≠ initproc → ((updateTime q s).mem.proc r).state ≠ .unused →
      ((updateTime q s).mem.proc r).rtime.toNat = _
    rw [updateTime_state, updateTime_rtime, History.visit_busy]
    intro hinit hne
    have hrt := hr hinit hne
    split
    · next hrun =>
      obtain ⟨rfl, hrun⟩ := hrun
      have htotal := ha (by rw [hrun]; decide)
      rw [UInt32.toNat_add, hrt]
      exact Nat.mod_eq_of_lt (by show h.busy r + 1 < _; omega)
    · exact hrt
  · show Alive ((updateTime q s).mem.proc r).state →
      ((updateTime q s).mem.proc r).ctime.toNat + _ + _ + due (s.visit + 1) r = _
    rw [updateTime_state, updateTime_ctime, History.visit_busy, History.visit_idle,
      History.visit_total]
    intro hal
    have htotal := ha hal
    by_cases hrq : r = q
    · subst hrq
      rw [hself.1] at htotal
      rw [hself.2]
      by_cases hrun : (s.mem.proc r).state = .running
      · rw [if_pos ⟨rfl, hrun⟩, if_neg fun hidle => hidle.2.1 hrun]
        omega
      · rw [if_neg fun hbusy => hrun hbusy.2, if_pos ⟨rfl, hrun, hal⟩]
        omega
    · rw [hother hrq]
      simpa [hrq] using htotal
  · show ((updateTime q s).mem.proc r).state = .zombie →
      ((updateTime q s).extra r).etime.toNat = ((updateTime q s).mem.proc r).ctime.toNat + _ + _
    rw [updateTime_state, updateTime_ctime, updateTime_etime, History.visit_busy,
      History.visit_idle]
    intro hzom
    have hnot : ¬ (r = q ∧ (s.mem.proc q).state = .running) := by
      rintro ⟨rfl, hrun⟩
      rw [hzom] at hrun
      cases hrun
    have hdead : ¬ (r = q ∧ (s.mem.proc q).state ≠ .running ∧ Alive (s.mem.proc q).state) := by
      rintro ⟨rfl, -, hal⟩
      exact hal.2 hzom
    rw [if_neg hnot, if_neg hdead]
    exact hz hzom

/-! ## `fork` and `exit` -/

theorem History.reset_of_ne {r : Slot} (hr : r ≠ q) :
    (h.reset q).busy r = h.busy r ∧ (h.reset q).idle r = h.idle r :=
  ⟨update_of_ne hr _ _, update_of_ne hr _ _⟩

theorem AccInv.tried (hacc : AccInv s h)
    (hproc : ∀ r, r ≠ q → s'.mem.proc r = s.mem.proc r ∧ (s'.extra r).etime = (s.extra r).etime)
    (hticks : s'.mem.ticks = s.mem.ticks) (hvisit : s'.visit = s.visit) :
    AccInv (freeFields q s') (h.reset q) := by
  have hunused : ((freeFields q s').mem.proc q).state = .unused := by
    simp [freeFields, Sched.freeproc]
  have hk : Kept s (freeFields q s') := by
    refine ⟨hticks, hvisit, fun r => ?_⟩
    by_cases hr : r = q
    · left
      rw [hr, hunused]
    · right
      simpa [hr, freeFields, Sched.freeproc] using hproc r hr
  refine AccInv.kept hacc hk (by rfl) fun r hr => ?_
  apply History.reset_of_ne
  rintro rfl
  exact hr hunused

theorem AccInv.forked {r : Option ℕ} (hacc : AccInv s h) (hf : Forked R p s r s')
    (htimely : ∀ q, findUnused s.mem = some q → q.val < s.visit) :
    AccInv s' (h.record s (.fork p)) := by
  have hreset : ∀ q, findUnused s.mem = some q → h.record s (.fork p) = h.reset q := by
    intro q hq
    simp only [History.record, hq]
  cases hf with
  | full hfull =>
    simp only [History.record, hfull]
    exact hacc
  | noMemory q vm hq halloc hslot =>
    rw [hreset q hq]
    refine hacc.tried (fun r hr => ?_) rfl rfl
    simp [allocBegin, State.setExtra, hr]
  | noCopy q x y vm vm' hq hx halloc hslot hcopy hslot' =>
    rw [hreset q hq]
    refine hacc.tried (fun r hr => ?_) rfl rfl
    simp [allocated, allocEnd, allocBegin, State.setMem, State.setExtra, hr]
  | child q x y z vm vm' hq hx halloc hslot hcopy hslot' =>
    rw [hreset q hq]
    refine ⟨hacc.ticks, fun r => ?_⟩
    by_cases hr : r = q
    · -- The new process was created now, after this tick has come to its slot.
      subst hr
      have hnew : (forkEnd p r { allocated r vm s with vm := vm' }).mem.proc r =
          { (forkEnd p r { allocated r vm s with vm := vm' }).mem.proc r with
            state := .runnable, rtime := 0, ctime := s.mem.ticks } := by
        simp [forkEnd, allocated, allocEnd, allocBegin, State.setMem, State.setExtra, Sched.Mem.set]
      refine ⟨?_, ?_, ?_⟩
      · rw [hnew]
        intro _ _
        simp [History.reset]
      · rw [hnew]
        intro _
        show s.mem.ticks.toNat + (h.reset r).busy r + (h.reset r).idle r + due s.visit r = h.total
        rw [due_of_lt (htimely r hq), hacc.ticks]
        simp [History.reset]
      · rw [hnew]
        intro hz
        cases hz
    · refine (hacc.slots r).frame (.of_eq ?_) ?_ rfl rfl (History.reset_of_ne hr)
      · simp [forkEnd, allocated, allocEnd, allocBegin, State.setMem, State.setExtra, hr]
      · simp [forkEnd, allocated, allocEnd, allocBegin, State.setMem, State.setExtra, hr]

theorem reparent_same (r : Slot) : SameProc r (s.mem.proc r) ((reparent p s.mem).proc r) := by
  simp only [reparent]
  split <;> exact ⟨.inl rfl, rfl, fun _ => rfl⟩

theorem AccInv.exit {status : ℤ} {file inode : ℕ → ℤ} (hacc : AccInv s h)
    (hrun : (s.mem.proc p).state = .running) (htimely : p.val < s.visit)
    (he : exit p status file inode s = .ok s') : AccInv s' h := by
  unfold Xv6.Task.exit at he
  split at he
  · cases he
  cases he
  refine ⟨hacc.ticks, fun r => ?_⟩
  have hsame := reparent_same (s := s) (p := p) r
  by_cases hrp : r = p
  · -- The last tick has come to the slot, so every tick since `ctime` has been counted.
    subst hrp
    obtain ⟨hr, ha, -⟩ := hacc.slots r
    have htotal := ha (by rw [hrun]; decide)
    rw [due_of_lt htimely] at htotal
    refine ⟨fun hinit _ => ?_, fun hal => ?_, fun _ => ?_⟩
    · simp only [State.setExtra_mem, State.setMem_mem, Sched.Mem.set_proc_self]
      rw [hsame.rtime hinit]
      exact hr hinit (by rw [hrun]; decide)
    · simp [Alive] at hal
    · simp only [State.setExtra_mem, State.setExtra_extra, State.setMem_mem, update_self,
        Sched.Mem.set_proc_self]
      rw [hsame.ctime]
      exact hacc.ticks.trans htotal.symm
  · refine (hacc.slots r).frame ?_ ?_ rfl rfl ⟨rfl, rfl⟩
    · simp only [State.setExtra_mem, State.setMem_mem]
      rw [Sched.Mem.set_proc_of_ne _ _ hrp]
      exact hsame
    · simp [hrp]

theorem AccInv.setPriority {priority pid : ℤ} (hacc : AccInv s h) :
    AccInv (setPriority p priority pid s) h := by
  rw [Task.setPriority, Sched.setStaticPriority_eq]
  dsimp only
  split
  · refine ⟨hacc.ticks, fun r => (hacc.slots r).frame ?_ rfl rfl rfl ⟨rfl, rfl⟩⟩
    dsimp only
    rw [Sched.changePriority]
    by_cases hr : r = initproc
    · subst hr
      rw [Sched.Mem.set_proc_self]
      exact ⟨.inl rfl, rfl, fun hne => absurd rfl hne⟩
    · rw [Sched.Mem.set_proc_of_ne _ _ hr]
      exact .of_eq rfl
  · exact hacc

theorem AccInv.fields {x : Sched.Proc} (hacc : AccInv s h) (hx : MayBecome (s.mem.proc q) x) :
    AccInv (s.setMem q fun _ => x) h := by
  refine ⟨hacc.ticks, fun r => (hacc.slots r).frame ?_ rfl rfl rfl ⟨rfl, rfl⟩⟩
  by_cases hr : r = q
  · subst hr
    obtain ⟨hstate, -, -, -, hrtime, hctime, -⟩ := hx
    rw [State.setMem_mem, Sched.Mem.set_proc_self]
    exact ⟨hstate, hctime, fun _ => hrtime⟩
  · rw [State.setMem_mem, Sched.Mem.set_proc_of_ne _ _ hr]
    exact .of_eq rfl

/-! ## Every step -/

theorem AccInv.step {e : Event} (hinv : Inv R s) (hacc : AccInv s h) (htimely : Timely (s, h) e)
    (hstep : step R s e = .ok s') (hlen : (h.record s e).total < 2 ^ 32) :
    AccInv s' (h.record s e) := by
  cases step_stepped hstep with
  | tick hv => exact hacc.tick hv hlen
  | visit hv =>
    simp only [History.record, dif_pos hv] at hlen ⊢
    rw [History.visit_total] at hlen
    exact hacc.visit hlen rfl
  | fork _ hfork => exact hacc.forked (fork_forked hinv.kinds hfork) htimely
  | exit hrun hexit => exact hacc.exit hrun htimely hexit
  | wait _ hwait => exact hacc.kept (wait_kept hwait) rfl fun _ _ => ⟨rfl, rfl⟩
  | waitx _ hwait => exact hacc.kept (sysWaitx_kept hwait) rfl fun _ _ => ⟨rfl, rfl⟩
  | setPriority => exact hacc.setPriority
  | memory => exact hacc.kept (.of_table rfl) rfl fun _ _ => ⟨rfl, rfl⟩
  | fields hx => exact hacc.fields hx
  | @files p =>
    refine ⟨hacc.ticks, fun r => (hacc.slots r).frame (.of_eq rfl) ?_ rfl rfl ⟨rfl, rfl⟩⟩
    by_cases hr : r = p <;> simp [hr]

theorem History.total_le_record (e : Event) : h.total ≤ (h.record s e).total := by
  cases e with
  | tick => exact Nat.le_succ _
  | visit =>
    simp only [record]
    split
    · rw [visit_total]
    · exact le_rfl
  | fork =>
    simp only [record]
    split <;> exact le_rfl
  | _ => exact le_rfl

theorem AccInv.booted (hb : Booted R s) : AccInv s .zero := by
  obtain ⟨-, hmem, hv⟩ := hb
  refine ⟨by rw [hmem]; rfl, fun q => ?_⟩
  by_cases hq : q = initproc
  · subst hq
    refine ⟨fun hne => absurd rfl hne, fun _ => ?_, fun hz => ?_⟩
    · rw [hmem, hv, due_of_lt (Fin.isLt _)]
      decide
    · rw [hmem] at hz
      cases hz
  · apply Accounted.of_unused
    rw [hmem]
    simp [Sched.bootMem, Sched.Proc.zero, hq]

theorem recorded_inv {x : State × History}
    (hx : ((recorded R).restrict Timely).Reachable x) :
    Inv R x.1 ∧ (x.2.total < 2 ^ 32 → AccInv x.1 x.2) := by
  induction hx with
  | init hinit =>
    obtain ⟨hboot, hzero⟩ := hinit
    rw [hzero]
    exact ⟨Inv.booted hboot, fun _ => AccInv.booted hboot⟩
  | step _ hstep ih =>
    obtain ⟨htimely, hstep, hrec⟩ := hstep
    refine ⟨ih.1.step hstep, fun hlen => ?_⟩
    rw [hrec] at hlen ⊢
    exact (ih.2 ((History.total_le_record _).trans_lt hlen)).step ih.1 htimely hstep hlen

/-! ## What `waitx` reports -/

theorem reported_eq (hinv : Inv R s) (hacc : AccInv s h)
    (hq : (s.mem.proc q).state = .zombie) : (reported s q).rtime.toNat = h.busy q ∧
      (reported s q).wtime.toNat = h.idle q ∧
      (s.extra q).etime.toNat = (s.mem.proc q).ctime.toNat + h.busy q + h.idle q := by
  obtain ⟨hr, -, hz⟩ := hacc.slots q
  have hbusy := hr (hinv.ne_init hq) (by rw [hq]; decide)
  have htotal := hz hq
  refine ⟨hbusy, ?_, htotal⟩
  have hc : (s.mem.proc q).ctime ≤ (s.extra q).etime := by
    rw [UInt32.le_iff_toNat_le]
    omega
  have hsub := UInt32.toNat_sub_of_le _ _ hc
  have hrt : (s.mem.proc q).rtime ≤ (s.extra q).etime - (s.mem.proc q).ctime := by
    rw [UInt32.le_iff_toNat_le]
    omega
  simp only [reported]
  rw [UInt32.toNat_sub_of_le _ _ hrt]
  omega

/-- In every run of fewer than 2³² ticks in which no process is created or exits between `ticks++`
and the visit of `update_time` to its slot, `waitx` reports of the child that it reaps the number of
ticks at which it was `RUNNING`, and as waiting time the number of the other ticks from its creation
to its exit; `etime - ctime - rtime` does not wrap around. -/
theorem waitx_accounting_exact {x : State × History}
    (hx : ((recorded R).restrict Timely).Reachable x) (hlen : x.2.total < 2 ^ 32) {addr : ℕ}
    {l l' : Locals} {pid : ℕ} (hw : waitx R p addr l x.1 = .ok (.done (some pid), l', s')) :
    ∃ q, findZombie x.1.mem p = some q ∧ (x.1.mem.proc q).pid = pid ∧
      l'.rtime.toNat = x.2.busy q ∧ l'.wtime.toNat = x.2.idle q ∧
      (x.1.extra q).etime.toNat =
        (x.1.mem.proc q).ctime.toNat + l'.rtime.toNat + l'.wtime.toNat := by
  obtain ⟨hinv, hacc⟩ := recorded_inv hx
  unfold waitx at hw
  split at hw
  · next q hq =>
    obtain ⟨⟨pid', s₂⟩, hfound, hw⟩ := Outcome.bind_eq_ok hw
    cases hw
    obtain ⟨ok, s₁, hstatus, ⟨-, hnone, -⟩ | ⟨-, hpid, -⟩⟩ := waitFound_ok hfound
    · cases hnone
    obtain ⟨hr, hwt, htotal⟩ := reported_eq hinv (hacc hlen) (findZombie_some hq).2
    refine ⟨q, hq, ?_, hr, hwt, by rw [hr, hwt, htotal]⟩
    rw [Option.some.inj hpid, copyStatus_table hstatus]
  · obtain ⟨hret, -⟩ := Prod.mk.inj (Outcome.ok.inj hw)
    unfold waitNone at hret
    split at hret <;> cases hret

end

/-! ## Runs -/

def recordFrom (R : Vm.Ram) (C : State × History → Event → Bool) (es : List (State → Event)) :
    Option (State × History) :=
  (bootState R).bind fun s => TransSys.exec (fun x e =>
    if C x (e x.1) then (step R x.1 (e x.1)).result.map fun s' => (s', x.2.record x.1 (e x.1))
    else none) (s, .zero) es

theorem reachable_of_recordFrom {R : Vm.Ram} {C : State × History → Event → Bool}
    {D : State × History → Event → Prop} (hC : ∀ x e, C x e = true → D x e)
    {es : List (State → Event)} {x : State × History} (h : recordFrom R C es = some x) :
    ((recorded R).restrict D).Reachable x := by
  obtain ⟨s, hs, hx⟩ := Option.bind_eq_some_iff.mp h
  refine TransSys.Reachable.of_steps (fun y e y' he => ⟨e y.1, ?_⟩)
    (.init ⟨booted_of_bootState hs, rfl⟩) hx
  split at he
  · next hc =>
    obtain ⟨s', hs', rfl⟩ := Option.map_eq_some_iff.mp he
    exact ⟨hC _ _ hc, Outcome.result_eq_some.mp hs', rfl⟩
  · cases he

def timely (x : State × History) : Event → Bool
  | .fork _ => (findUnused x.1.mem).all fun q => q.val < x.1.visit
  | .exit p _ _ _ => p.val < x.1.visit
  | _ => true

theorem Timely.of_timely (x : State × History) (e : Event) (h : timely x e = true) :
    Timely x e := by
  cases e with
  | fork p =>
    intro q hq
    simpa [timely, hq] using h
  | exit p status file inode => simpa [timely, Timely] using h
  | _ => trivial

theorem waitx_accounting_exact_child : ∃ (x : State × History) (s' : State) (l' : Locals)
    (q : Slot),
    ((recorded Vm.smallRam).restrict Timely).Reachable x ∧
    waitx Vm.smallRam initproc 0 ⟨0, 0⟩ x.1 = .ok (.done (some 2), l', s') ∧
    x.2.busy q = 1 ∧ l'.rtime.toNat = x.2.busy q ∧ l'.wtime.toNat = x.2.idle q := by
  have hrun : (recordFrom Vm.smallRam timely ([dispatch initproc, fun _ => .fork initproc,
      dispatch firstChild, fun _ => .tick] ++ List.replicate NPROC (fun _ => .visit) ++
      [fun _ => .exit firstChild 7 (fun _ => 0) fun _ => 0])).bind (fun x =>
        (waitx Vm.smallRam initproc 0 ⟨0, 0⟩ x.1).result.map fun r =>
          decide (x.2.total < 2 ^ 32 ∧ x.2.busy firstChild = 1 ∧
            findZombie x.1.mem initproc = some firstChild ∧ r.1 = .done (some 2))) =
      some true := by decide +kernel
  obtain ⟨x, hx, hres⟩ := Option.bind_eq_some_iff.mp hrun
  obtain ⟨⟨r, l', s'⟩, hres, htest⟩ := Option.map_eq_some_iff.mp hres
  obtain ⟨hlen, hbusy, hz, hr⟩ := of_decide_eq_true htest
  dsimp only at hr
  subst hr
  have hreach := reachable_of_recordFrom Timely.of_timely hx
  have hret := Outcome.result_eq_some.mp hres
  obtain ⟨q, hq, -, hrt, hwt, -⟩ := waitx_accounting_exact hreach hlen hret
  rw [hz] at hq
  cases hq
  exact ⟨x, s', l', firstChild, hreach, hret, hbusy, hrt, hwt⟩

/-- A process that is created after `ticks++`, and is found running when `update_time` comes to its
slot, has used more time than has passed since its creation: the waiting time wraps around. -/
theorem waitx_underflow : ¬ ∀ (x : State × History) (s' : State) (p : Slot) (addr : ℕ)
    (l l' : Locals) (pid : ℕ), (recorded Vm.smallRam).Reachable x → x.2.total < 2 ^ 32 →
      waitx Vm.smallRam p addr l x.1 = .ok (.done (some pid), l', s') →
      ∃ q, findZombie x.1.mem p = some q ∧ l'.rtime.toNat = x.2.busy q ∧
        l'.wtime.toNat = x.2.idle q := by
  intro hall
  have hrun : (recordFrom Vm.smallRam (fun _ _ => true) [dispatch initproc, fun _ => .tick,
      fun _ => .fork initproc, dispatch firstChild, fun _ => .visit, fun _ => .visit,
      fun _ => .exit firstChild 7 (fun _ => 0) fun _ => 0]).bind (fun x =>
        (waitx Vm.smallRam initproc 0 ⟨0, 0⟩ x.1).result.map fun r =>
          decide (x.2.total < 2 ^ 32 ∧ x.2.idle firstChild = 0 ∧ r.2.1.wtime = 0xffffffff ∧
            findZombie x.1.mem initproc = some firstChild ∧ r.1 = .done (some 2))) =
      some true := by decide +kernel
  obtain ⟨x, hx, hres⟩ := Option.bind_eq_some_iff.mp hrun
  obtain ⟨⟨r, l', s'⟩, hres, htest⟩ := Option.map_eq_some_iff.mp hres
  obtain ⟨hlen, hidle, hw, hz, hr⟩ := of_decide_eq_true htest
  dsimp only at hr hw
  subst hr
  have hreach := (reachable_of_recordFrom (fun _ _ _ => trivial) hx).unrestrict
  obtain ⟨q, hq, -, hwt⟩ :=
    hall x s' initproc 0 ⟨0, 0⟩ l' 2 hreach hlen (Outcome.result_eq_some.mp hres)
  rw [hz] at hq
  cases hq
  rw [hidle, hw] at hwt
  revert hwt
  decide

end Xv6.Task
