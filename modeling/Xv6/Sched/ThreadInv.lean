import Xv6.Sched.SchedulerInv

/-! # The threads of the processes keep the invariant

The calls of a running process: what they do to other processes is `Quiet`, and a thread gives up
the hart only through `sched`, with its own lock and no other.
-/

namespace Xv6.Sched
set_option autoImplicit false
open Function (update update_of_ne)
open Handover (Act handLock)
open Outcome (ensures_bind ensures_guard)

theorem Pc.lock_ne_proc (pc : Pc) (q : Slot) : pc.lock ≠ some (.proc q) := by
  cases pc with
  | wakeup chan i ret => cases ret <;> simp [Pc.lock]
  | _ => simp [Pc.lock]

theorem Pc.lock_of_interruptible {pc : Pc} (h : pc.interruptible = true) : pc.lock = none := by
  cases pc with
  | wakeup chan i ret => cases ret <;> simp_all [Pc.lock, Pc.interruptible]
  | _ => simp_all [Pc.lock, Pc.interruptible]

theorem Pc.wf_of_interruptible {pc : Pc} (h : pc.interruptible = true) : pc.Wf := by
  cases pc <;> simp_all [Pc.Wf, Pc.interruptible]

theorem WakeRet.pc_lock (chan : Chan) (i : ℕ) (ret : WakeRet) :
    ret.pc.lock = (Pc.wakeup chan i ret).lock := by
  cases ret <;> rfl

theorem WakeRet.pc_wf (ret : WakeRet) : ret.pc.Wf := by
  cases ret <;> trivial

theorem WakeRet.pc_child (ret : WakeRet) : ret.pc.child = none := by
  cases ret <;> rfl

section
variable {H : Type} [DecidableEq H] {b : Build} {s : State H} {h : H} {p : Slot}

variable {pc pc' : Pc} {l : LockId} {q : Slot} {i : ℕ} {x : Bool}

omit [DecidableEq H] in
theorem Inv.cpu_at (hI : Inv b s) (hr : s.run h = some p) (ht : s.thread p = .at pc) :
    (s.cpu h).At (some p) (lockCount pc.lock) := by
  have := hI.cpu h
  rwa [State.act_some hr, ht] at this

omit [DecidableEq H] in
theorem Inv.at_lock (_ : Inv b s) (hr : s.run h = some p) (ht : s.thread p = .at pc) :
    (s.act h).lock LockId.proc = pc.lock := by
  rw [State.act_some hr, ht]
  rfl

section
variable (hI : Inv b s) (hr : s.run h = some p) (ht : s.thread p = .at pc)
include hI hr ht

theorem Inv.goAt {d : Pc} {C : H → Cpu} {L : LockId → Option H} (hwf : d.Wf)
    (hchild : d.child = none ∨ d.child = pc.child) (hlock : d.lock = pc.lock) (hL : L = s.locks)
    (hC : ∀ g, g ≠ h → C g = s.cpu g) (hc : (C h).At (some p) (lockCount pc.lock)) :
    Inv b { s.goThread p (.at d) with locks := L, cpu := C } := by
  have hheld := hI.holds (hI.at_lock hr ht)
  refine hI.goThread hr hwf rfl (hI.mayHave (by rw [ht]; exact hchild)) (by rw [ht]; rfl) ?_ ?_ hC
    ?_
  · intro l hl
    exact .inr (hheld l (hlock ▸ hl))
  · show L = handLock s.locks h ((s.thread p).act p |>.lock LockId.proc) d.lock
    rw [ht, hL, hlock]
    exact (Handover.handLock_self hheld).symm
  · show (C h).At (some p) (lockCount d.lock)
    rwa [hlock]

theorem acquire_goAt (hwf : pc'.Wf) (hchild : pc'.child = none) (hno : pc.lock = none)
    (hl : pc'.lock = some l) :
    (acquire h l s >>= fun s => pure (s.goThread p (.at pc'))).Ensures (Allowed b) (Inv b) := by
  have hc := hI.cpu_at hr ht
  rw [hno] at hc
  refine ensures_bind (acquire_ensures hc (hI.not_holds ?_) ?_)
  · rw [hI.at_lock hr ht, hno]
    simp
  intro hfree c hc'
  refine hI.goThread hr hwf rfl (hI.mayHave (.inl hchild)) (by rw [ht]; rfl) ?_ ?_ ?_ ?_
  · intro k hk
    obtain rfl : l = k := Option.some.inj (hl.symm.trans hk)
    exact .inl hfree
  · show _ = handLock s.locks h ((s.thread p).act p |>.lock LockId.proc) pc'.lock
    rw [ht, hl]
    show _ = handLock s.locks h pc.lock (some l)
    rw [hno, Handover.handLock_acquire]
    rfl
  · intro g hg
    simp [hg]
  · show Cpu.At _ _ (lockCount pc'.lock)
    rw [hl]
    simpa using hc'

theorem release_goAt (hwf : pc'.Wf) (hchild : pc'.child = none) (hl : pc.lock = some l)
    (hno : pc'.lock = none) :
    (release h l s >>= fun s => pure (s.goThread p (.at pc'))).Ensures (Allowed b) (Inv b) := by
  have hc := hI.cpu_at hr ht
  rw [hl] at hc
  refine ensures_bind (release_ensures hc (hI.holds (hI.at_lock hr ht) l hl) ?_)
  intro c hc'
  refine hI.goThread hr hwf rfl (hI.mayHave (.inl hchild)) (by rw [ht]; rfl) ?_ ?_ ?_ ?_
  · intro k hk
    exact absurd (hno.symm.trans hk) (by simp)
  · show _ = handLock s.locks h ((s.thread p).act p |>.lock LockId.proc) pc'.lock
    rw [ht, hno]
    show _ = handLock s.locks h pc.lock none
    rw [hl, Handover.handLock_release]
    rfl
  · intro g hg
    simp [hg]
  · show Cpu.At _ _ (lockCount pc'.lock)
    rw [hno]
    simpa using hc'

theorem critical_goAt {f : Mem → Mem} (hl : pc.lock ≠ some l) (hf : Quiet s (f s.mem))
    (hwf : pc'.Wf) (hchild : pc'.child = none ∨ pc'.child = pc.child) (hlock : pc'.lock = pc.lock) :
    (critical h l f s >>= fun s => pure (s.goThread p (.at pc'))).Ensures (Allowed b) (Inv b) := by
  refine ensures_bind (critical_ensures (hI.cpu_at hr ht) (hI.not_holds ?_) ?_)
  · rwa [hI.at_lock hr ht]
  intro _ c hc
  refine (hI.setMem hf).goAt hr ht hwf hchild hlock rfl ?_ ?_
  · intro g hg
    simp [hg]
  · simpa using hc

end

/-! ## What the calls do to other processes -/

omit [DecidableEq H] in
theorem wakeOne_quiet (chan : Chan) (q : Slot) : Quiet s (wakeOne chan q s.mem) := by
  unfold wakeOne
  split
  · next hq =>
    refine Quiet.set ?_
    rw [hq.1]
    exact .wake
  · exact .of_state_eq fun _ => rfl

omit [DecidableEq H] in
theorem killOne_quiet (pid : ℕ) (q : Slot) : Quiet s (killOne pid q s.mem) := by
  unfold killOne
  split
  · refine Quiet.set ?_
    split
    · next hq =>
      rw [hq]
      exact .wake
    · exact .same _
  · exact .of_state_eq fun _ => rfl

omit [DecidableEq H] in
theorem allocFail_quiet (hq : (s.mem.proc q).state = .unused) : Quiet s (allocFail p q s.mem) := by
  refine .of_state_eq fun r => ?_
  by_cases hr : r = q
  · subst hr
    simp [allocFail, freeproc, hq]
  · simp [allocFail, freeproc, allocOne, hr]

omit [DecidableEq H] in
theorem freeproc_quiet (hq : (s.mem.proc q).state = .zombie) : Quiet s (freeproc q s.mem) := by
  refine Quiet.set ?_
  rw [hq]
  exact .reap

omit [DecidableEq H] in
theorem set_quiet {f : Proc → Proc} (hf : (f (s.mem.proc q)).state = (s.mem.proc q).state) :
    Quiet s (s.mem.set q f) := by
  refine Quiet.set ?_
  rw [hf]
  exact .same _

omit [DecidableEq H] in
theorem pushQueue_quiet {q : ℕ} {f : Proc → Proc} {m : Mem}
    (hf : (f (s.mem.proc p)).state = (s.mem.proc p).state)
    (hm : pushQueue p q (s.mem.set p f) = .ok m) : Quiet s m := by
  refine .of_state_eq fun r => ?_
  rw [pushQueue_state hm]
  by_cases hr : r = p
  · subst hr
    simp [hf]
  · simp [hr]

/-! ## Giving up the hart -/

section
variable (hI : Inv b s) (hr : s.run h = some p)
include hI hr

theorem yieldStep_ensures (ht : s.thread p = .at pc) (hno : pc.lock = none) (hno' : pc'.lock = none)
    (hwf : pc'.Wf) (hchild : pc'.child = none ∨ pc'.child = pc.child) :
    (yieldStep h p pc' s).Ensures (Allowed b) (Inv b) := by
  have hc := hI.cpu_at hr ht
  rw [hno] at hc
  refine ensures_bind (acquire_ensures hc (hI.not_holds ?_) ?_)
  · rw [hI.at_lock hr ht]
    exact pc.lock_ne_proc p
  intro hfree c hc'
  refine hI.leave hr ht hfree ?_ ?_ ?_ ⟨hno', hwf⟩ hchild (by simp) ?_ ?_
  · rw [hno, Handover.handLock_acquire]
    rfl
  · intro g hg
    simp [hg]
  · simpa using hc'
  · simp
  · intro q hq
    simp [hq]

theorem sleepStep_ensures {lk : LockId} {chan : Chan} (ht : s.thread p = .at pc)
    (hlk : pc.lock = some lk) (hno' : pc'.lock = none) (hwf : pc'.Wf) (hchild : pc'.child = none) :
    (sleepStep h p chan lk pc' s).Ensures (Allowed b) (Inv b) := by
  have hc := hI.cpu_at hr ht
  rw [hlk] at hc
  have hne : lk ≠ .proc p := fun e => pc.lock_ne_proc p (e ▸ hlk)
  have hheld := hI.holds (hI.at_lock hr ht) lk hlk
  refine ensures_bind (acquire_ensures hc (hI.not_holds ?_) ?_)
  · rw [hI.at_lock hr ht]
    exact pc.lock_ne_proc p
  intro hfree c hc'
  refine ensures_bind (release_ensures (p := some p) (n := 1) ?_ ?_ ?_)
  · simpa using hc'
  · simp [hne, hheld]
  intro c2 hc2
  refine hI.leave hr ht hfree ?_ ?_ ?_ ⟨hno', hwf⟩ (.inl hchild) (by simp) ?_ ?_
  · rw [hlk, Handover.handLock_swap hne]
    rfl
  · intro g hg
    simp [hg]
  · simpa using hc2
  · simp
  · intro q hq
    simp [hq]

theorem exitLastStep_ensures {status : ℤ} (ht : s.thread p = .at (.exitLast status)) :
    (exitLastStep h p status s).Ensures (Allowed b) (Inv b) := by
  have hc : (s.cpu h).At (some p) 1 := hI.cpu_at hr ht
  have hheld := hI.holds (hI.at_lock hr ht) .wait rfl
  refine ensures_bind (acquire_ensures hc (hI.not_holds ?_) ?_)
  · rw [hI.at_lock hr ht]
    exact Pc.lock_ne_proc _ p
  intro hfree c hc'
  refine ensures_bind (release_ensures (p := some p) (n := 1) ?_ ?_ ?_)
  · simpa using hc'
  · simp [hheld]
  intro c2 hc2
  refine hI.leave hr ht hfree ?_ ?_ ?_ trivial (.inl rfl) (fun _ => ?_) ?_ ?_
  · rw [show (Pc.exitLast status).lock = some .wait from rfl,
      Handover.handLock_swap (by simp)]
    rfl
  · intro g hg
    simp [hg]
  · simpa using hc2
  · simp
  · simp
  · intro q hq
    simp [hq]

theorem schedCall_ensures {ret : Ret} (ht : s.thread p = .sched ret) :
    (schedCall h p ret s).Ensures (Allowed b) (Inv b) := by
  have hact : s.act h = .leaving p := by rw [State.act_some hr, ht]; rfl
  have hc : (s.cpu h).At (some p) 1 := by
    have := hI.cpu h
    rwa [hact] at this
  have hheld : s.locks (.proc p) = some h := hI.holds (by rw [hact]; rfl) _ rfl
  have hnot : (s.mem.proc p).state ≠ .running :=
    hI.hand.not_running (by rw [hact]; rfl) (by rw [hact]; rfl)
  have hintr : (s.cpu h).intr = false := hc.intr (by decide)
  simp only [schedCall, hc.proc, hheld, hc.noff, hnot, hintr, ne_eq, not_true_eq_false, if_false,
    Bool.false_eq_true]
  exact hI.schedSwtch hr ht _

theorem resumeStep_ensures {ret : Ret} (ht : s.thread p = .resume ret) :
    (resumeStep h p s ret).Ensures (Allowed b) (Inv b) := by
  have hact : s.act h = .resumed p := by rw [State.act_some hr, ht]; rfl
  have hc : (s.cpu h).At (some p) 1 := by
    have := hI.cpu h
    rwa [hact] at this
  have hheld : s.locks (.proc p) = some h := hI.holds (by rw [hact]; rfl) _ rfl
  have hrunning : (s.mem.proc p).state = .running :=
    hI.hand.running_of_live h p (by rw [hact]; rfl)
  have hwf := hI.threadWf p
  rw [ht] at hwf
  -- the common part: `p->lock` is released and the thread goes on at `pc`
  have hgo : ∀ (t : State H) (C : H → Cpu) (m : Mem) (pc : Pc), pc.lock = none → pc.Wf →
      (pc.child = none ∨ pc.child = ret.child) → Quiet s m → (∀ g, g ≠ h → C g = s.cpu g) →
      (C h).At (some p) 1 → t = { s with mem := m, cpu := C } →
      (release h (.proc p) t >>= fun t => pure (t.goThread p (.at pc))).Ensures (Allowed b)
        (Inv b) := by
    rintro t C m pc hno hpcwf hchild hm hC hcC rfl
    refine ensures_bind (release_ensures hcC hheld ?_)
    intro c hc'
    have hI' := hI.setMem hm
    refine hI'.goThread hr hpcwf rfl (hI'.mayHave (by rw [show _ = _ from ht]; exact hchild))
      ?_ ?_ ?_ ?_ ?_
    · simp [ht, Thread.act, Act.live]
    · intro l hl
      exact absurd (hno.symm.trans hl) (by simp)
    · show _ = handLock s.locks h ((s.thread p).act p |>.lock LockId.proc) pc.lock
      rw [ht, hno]
      exact Handover.handLock_release.symm
    · intro g hg
      simp [hg, hC g hg]
    · show Cpu.At _ _ (lockCount pc.lock)
      rw [hno]
      simpa using hc'
  have hrest : (∀ g, g ≠ h → (restoreIntena h p s).cpu g = s.cpu g) ∧
      ((restoreIntena h p s).cpu h).At (some p) 1 := by
    refine ⟨fun g hg => by simp [restoreIntena, hg], ?_⟩
    refine ⟨?_, ?_, ?_⟩ <;> simp [restoreIntena, hc.proc, hc.noff, hc.intr]
  cases ret with
  | yield pc =>
    exact hgo _ _ s.mem pc hwf.1 hwf.2 (.inr rfl) (.of_state_eq fun _ => rfl) hrest.1 hrest.2 rfl
  | sleep pc =>
    exact hgo _ _ _ pc hwf.1 hwf.2 (.inr rfl) (set_quiet rfl) hrest.1 hrest.2 rfl
  | forkret =>
    exact hgo _ _ s.mem .user rfl trivial (.inl rfl) (.of_state_eq fun _ => rfl) (fun _ _ => rfl)
      hc rfl
  | exit =>
    have := hI.exited p (by rw [ht]; rfl)
    simp [hrunning] at this

/-! ## The functions of a running process -/

theorem wakeupStep_ensures {chan : Chan} {ret : WakeRet}
    (ht : s.thread p = .at (.wakeup chan i ret)) :
    (wakeupStep h p chan i ret s).Ensures (Allowed b) (Inv b) := by
  have hc := hI.cpu_at hr ht
  have hlock : (Pc.wakeup chan (i + 1) ret).lock = (Pc.wakeup chan i ret).lock := by
    cases ret <;> rfl
  rw [wakeupStep]
  split
  · dsimp only
    split
    · exact critical_goAt hI hr ht (Pc.lock_ne_proc _ _) (wakeOne_quiet _ _) trivial (.inl rfl)
        hlock
    · exact hI.goAt hr ht trivial (.inl rfl) hlock rfl (fun _ _ => rfl) hc
  · exact hI.goAt hr ht ret.pc_wf (.inl ret.pc_child) (ret.pc_lock chan i) rfl (fun _ _ => rfl) hc

theorem killStep_ensures {pid : ℕ} (ht : s.thread p = .at (.kill pid i)) :
    (killStep h p pid i s).Ensures (Allowed b) (Inv b) := by
  rw [killStep]
  split
  · refine critical_goAt hI hr ht (Pc.lock_ne_proc _ _) (killOne_quiet _ _) ?_ ?_ ?_
    · split <;> trivial
    · split <;> exact .inl rfl
    · split <;> rfl
  · exact hI.goAt hr ht trivial (.inl rfl) rfl rfl (fun _ _ => rfl) (hI.cpu_at hr ht)

theorem forkAlloc_inv (ht : s.thread p = .at (.forkAlloc i)) (hq : (s.mem.proc q).state = .unused)
    (hfree : s.locks (.proc q) = none) {c : Cpu} (hc : c.At (some p) 0) :
    Inv b ((State.goThread { s.setCpu h c with mem := allocOne p q s.mem } q
      (.resume .forkret)).goThread p (.at (.forkParent q))) := by
  have hact : s.act h = .exec p none := by rw [State.act_some hr, ht]; rfl
  have hpq : p ≠ q := by
    rintro rfl
    have := hI.hand.running_of_live h p (by rw [hact]; rfl)
    simp [hq] at this
  have hI1 : Inv b (s.setCpu h c) := by
    refine hI.setCpu (h := h) (fun g hg => by simp [hg]) ?_
    rw [hact]
    show (update s.cpu h c h).At (some p) 0
    simpa using hc
  have hI2 := hI1.alloc (q := q) (m := allocOne p q s.mem) hq hfree (by simp [allocOne])
    (fun r hr => by simp [allocOne, hr])
  have hnew : (update s.thread q (.resume .forkret)) p = .at (.forkAlloc i) := by
    rw [update_of_ne hpq, ht]
  refine hI2.goThread hr trivial rfl ?_ ?_ (fun l hl => ?_) ?_ (fun _ _ => rfl) ?_
  · -- no thread had the unused slot as its child
    intro k hk
    cases hk
    refine ⟨by simp [allocOne], fun a ha => ?_⟩
    by_cases haq : a = q
    · subst haq
      simp [Thread.child, Ret.child] at ha
    · have := (hI.child a q (by simpa [haq] using ha)).1
      simp [hq] at this
  · show _ = (Thread.act p (update s.thread q (.resume .forkret) p)).live
    rw [hnew]
    rfl
  · simp [Thread.act, Act.lock, Pc.lock] at hl
  · show s.locks = handLock s.locks h
      ((Thread.act p (update s.thread q (.resume .forkret) p)).lock LockId.proc) none
    rw [hnew]
    exact (Handover.handLock_self (by simp [Thread.act, Act.lock, Pc.lock])).symm
  · show (update s.cpu h c h).At (some p) 0
    simpa using hc

theorem forkAllocStep_ensures {mem : Bool} (ht : s.thread p = .at (.forkAlloc i)) :
    (forkAllocStep h p i mem s).Ensures (Allowed b) (Inv b) := by
  rw [forkAllocStep]
  split
  · dsimp only
    split
    · next hq =>
      split
      · refine ensures_bind (critical_ensures (hI.cpu_at hr ht) (hI.not_holds ?_) ?_)
        · rw [hI.at_lock hr ht]
          exact Pc.lock_ne_proc _ _
        intro hfree c hc
        exact forkAlloc_inv hI hr ht hq hfree hc
      · exact critical_goAt hI hr ht (Pc.lock_ne_proc _ _) (allocFail_quiet hq) trivial (.inl rfl)
          rfl
    · exact critical_goAt hI hr ht (Pc.lock_ne_proc _ _) (.of_state_eq fun _ => rfl) trivial
        (.inl rfl) rfl
  · exact hI.goAt hr ht trivial (.inl rfl) rfl rfl (fun _ _ => rfl) (hI.cpu_at hr ht)

theorem forkReady_ensures {np : Slot} (ht : s.thread p = .at (.forkReady np)) :
    (critical h (.proc np) (fun m => m.setState np .runnable) s >>= fun s =>
      pure (s.goThread p (.at .user))).Ensures (Allowed b) (Inv b) := by
  obtain ⟨hused, huniq⟩ := hI.child p np (by rw [ht]; rfl)
  refine ensures_bind (critical_ensures (hI.cpu_at hr ht) (hI.not_holds ?_) ?_)
  · rw [hI.at_lock hr ht]
    exact Pc.lock_ne_proc _ _
  intro _ c hc
  have hI' := hI.goAt (d := .user) (C := update s.cpu h c) hr ht trivial (.inl rfl) rfl
    rfl (fun g hg => by simp [hg]) (by simpa using hc)
  have hready : ∀ a, (update s.thread p (.at .user) a).child ≠ some np := by
    intro a ha
    by_cases hap : a = p
    · subst hap
      simp [Thread.child, Pc.child] at ha
    · exact hap (huniq a (by simpa [hap] using ha))
  refine hI'.setMem fun r => ?_
  show Foreign _ r (s.mem.proc r).state _
  by_cases hrn : r = np
  · subst hrn
    rw [hused, Mem.setState_self]
    exact .ready hready
  · rw [Mem.setState_of_ne _ _ hrn]
    exact .same _

theorem exitReparentStep_ensures {status : ℤ} (ht : s.thread p = .at (.exitReparent status i)) :
    (exitReparentStep p status i s).Ensures (Allowed b) (Inv b) := by
  have hc := hI.cpu_at hr ht
  rw [exitReparentStep]
  split
  · dsimp only
    split
    · refine (hI.setMem (m := s.mem.set _ fun x => { x with parent := some initproc })
        (set_quiet rfl)).goAt (d := .wakeup _ _ _) hr ht trivial (.inl rfl) rfl rfl
        (fun _ _ => rfl) hc
    · exact hI.goAt hr ht trivial (.inl rfl) rfl rfl (fun _ _ => rfl) hc
  · exact hI.goAt hr ht trivial (.inl rfl) rfl rfl (fun _ _ => rfl) hc

theorem waitLeave_ensures (ht : s.thread p = .at pc) (hw : pc.lock = some .wait) (q : Slot)
    {f : Mem → Mem} (hf : Quiet s (f s.mem)) :
    (critical h (.proc q) f s >>= fun s => release h .wait s >>= fun s =>
      pure (s.goThread p (.at .user))).Ensures (Allowed b) (Inv b) := by
  refine ensures_bind (critical_ensures (hI.cpu_at hr ht) (hI.not_holds ?_) ?_)
  · rw [hI.at_lock hr ht]
    exact Pc.lock_ne_proc _ _
  intro _ c hc'
  have hI' : Inv b { s.setCpu h c with mem := f s.mem } := by
    refine (hI.setMem hf).setCpu (h := h) (fun g hg => by simp [hg]) ?_
    show (update s.cpu h c h).At (s.act h).cur (lockCount ((s.act h).lock LockId.proc))
    rw [hI.at_lock hr ht, State.act_cur_of_run hr]
    simpa using hc'
  exact release_goAt hI' hr ht trivial rfl hw rfl

theorem waitEnd_ensures {havekids : Bool} (ht : s.thread p = .at (.waitScan x i havekids)) :
    (waitEnd h p x havekids s).Ensures (Allowed b) (Inv b) := by
  have hleave : (release h .wait s >>= fun s => pure (s.goThread p (.at .user))).Ensures
      (Allowed b) (Inv b) := release_goAt hI hr ht trivial rfl rfl rfl
  rw [waitEnd]
  cases havekids with
  | false => exact hleave
  | true =>
    cases x with
    | true =>
      cases (s.mem.proc p).killed with
      | true => exact hleave
      | false => exact hI.goAt hr ht trivial (.inl rfl) rfl rfl (fun _ _ => rfl) (hI.cpu_at hr ht)
    | false =>
      cases (s.mem.proc p).killed with
      | true => exact waitLeave_ensures hI hr ht rfl p (.of_state_eq fun _ => rfl)
      | false =>
        exact critical_goAt hI hr ht (Pc.lock_ne_proc _ _) (.of_state_eq fun _ => rfl) trivial
          (.inl rfl) rfl

theorem waitScanStep_ensures {havekids copy : Bool}
    (ht : s.thread p = .at (.waitScan x i havekids)) :
    (waitScanStep h p x i havekids copy s).Ensures (Allowed b) (Inv b) := by
  have hc := hI.cpu_at hr ht
  rw [waitScanStep]
  split
  · dsimp only
    split
    · split
      · next hz =>
        refine waitLeave_ensures hI hr ht rfl _ ?_
        split
        · exact freeproc_quiet hz
        · exact .of_state_eq fun _ => rfl
      · exact critical_goAt hI hr ht (Pc.lock_ne_proc _ _) (.of_state_eq fun _ => rfl) trivial
          (.inl rfl) rfl
    · exact hI.goAt hr ht trivial (.inl rfl) rfl rfl (fun _ _ => rfl) hc
  · exact waitEnd_ensures hI hr ht

end

theorem tickStep_ensures (hI : Inv .mlfq s) (hr : s.run h = some p) {ret : Pc}
    (ht : s.thread p = .at (.tick i ret)) :
    (tickStep p i ret s).Ensures (Allowed .mlfq) (Inv .mlfq) := by
  have hc := hI.cpu_at hr ht
  have hwf : ret.lock = none ∧ ret.Wf := by
    have := hI.threadWf p
    rwa [ht] at this
  have hgo : ∀ next : Pc, next.Wf → next.child = ret.child → next.lock = none →
      Inv .mlfq (s.goThread p (.at next)) := by
    intro next hnext hchild hno
    exact hI.goAt hr ht hnext (.inr hchild) hno rfl (fun _ _ => rfl) hc
  rw [tickStep]
  split
  · split
    · exact hgo _ ⟨rfl, hwf⟩ rfl rfl
    · exact hgo _ hwf rfl rfl
  · split
    · exact hgo _ hwf rfl rfl
    · exact hgo _ hwf.2 rfl hwf.1

theorem tickPushStep_ensures (hI : Inv .mlfq s) (hr : s.run h = some p) {demote : Bool} {ret : Pc}
    (ht : s.thread p = .at (.tickPush demote ret)) :
    (tickPushStep p demote ret s).Ensures (Allowed .mlfq) (Inv .mlfq) := by
  have hwf : ret.lock = none ∧ ret.Wf := by
    have := hI.threadWf p
    rwa [ht] at this
  rw [tickPushStep]
  refine ensures_bind ?_
  generalize hm : pushQueue _ _ _ = r
  cases r with
  | blocked => trivial
  | fail e => exact .inl rfl
  | ok m =>
    exact (hI.setMem (pushQueue_quiet rfl hm)).goAt hr ht hwf (.inr rfl) rfl rfl
      (fun _ _ => rfl) (hI.cpu_at hr ht)

/-! ## All steps of a running process -/

section
variable (hI : Inv b s) (hr : s.run h = some p) (ht : s.thread p = .at pc)
include hI hr ht

theorem pcStep_ensures {ok : Bool} : (pcStep b h p ok s pc).Ensures (Allowed b) (Inv b) := by
  cases pc with
  | user | locked => trivial
  | wakeup chan i ret => exact wakeupStep_ensures hI hr ht
  | kill pid i => exact killStep_ensures hI hr ht
  | forkAlloc i => exact forkAllocStep_ensures hI hr ht
  | forkParent np =>
    exact critical_goAt hI hr ht (by simp [Pc.lock]) (set_quiet rfl) trivial (.inr rfl) rfl
  | forkReady np => exact forkReady_ensures hI hr ht
  | exitReparent status i => exact exitReparentStep_ensures hI hr ht
  | exitLast status => exact exitLastStep_ensures hI hr ht
  | waitScan x i havekids => exact waitScanStep_ensures hI hr ht
  | waitSleep x => exact sleepStep_ensures hI hr ht rfl rfl trivial rfl
  | relockOther lk | relockWait x => exact acquire_goAt hI hr ht trivial rfl rfl rfl
  | tick i ret =>
    refine ensures_guard ?_
    rintro rfl
    exact tickStep_ensures hI hr ht
  | tickPush demote ret =>
    refine ensures_guard ?_
    rintro rfl
    exact tickPushStep_ensures hI hr ht
  | tickYield ret =>
    have hwf : ret.lock = none ∧ ret.Wf := by
      have := hI.threadWf p
      rwa [ht] at this
    exact yieldStep_ensures hI hr ht rfl hwf.1 hwf.2 (.inr rfl)

theorem waitCall_ensures : (waitCall h p pc x s).Ensures (Allowed b) (Inv b) := by
  refine ensures_guard ?_
  rintro rfl
  exact acquire_goAt hI hr ht trivial rfl rfl rfl

theorem callStep_ensures (c : Call) : (callStep b h p pc s c).Ensures (Allowed b) (Inv b) := by
  have hc := hI.cpu_at hr ht
  cases c with
  | yield =>
    simp only [callStep]
    split
    · next hy =>
      have hint : pc.interruptible = true := by
        simp only [mayYield, Bool.or_eq_true, decide_eq_true_eq, Bool.and_eq_true] at hy
        rcases hy with rfl | hy
        · rfl
        · exact hy.2
      exact yieldStep_ensures hI hr ht (Pc.lock_of_interruptible hint)
        (Pc.lock_of_interruptible hint) (Pc.wf_of_interruptible hint) (.inr rfl)
    · trivial
  | tick =>
    simp only [callStep]
    split
    · next htick =>
      obtain ⟨-, hint, -⟩ := htick
      exact (hI.setMem (m := s.mem.set p fun x => { x with ticksUsed := x.ticksUsed + 1 })
        (set_quiet rfl)).goAt (d := .tick _ _) hr ht
        ⟨Pc.lock_of_interruptible hint, Pc.wf_of_interruptible hint⟩ (.inr rfl)
        (Pc.lock_of_interruptible hint).symm rfl (fun _ _ => rfl) hc
    · trivial
  | lock lk =>
    refine ensures_guard ?_
    rintro rfl
    exact acquire_goAt hI hr ht trivial rfl rfl rfl
  | unlock =>
    cases pc with
    | locked lk => exact release_goAt hI hr ht trivial rfl rfl rfl
    | _ => trivial
  | sleep obj =>
    cases pc with
    | locked lk => exact sleepStep_ensures hI hr ht rfl rfl trivial rfl
    | _ => trivial
  | wakeup chan =>
    cases pc with
    | user => exact hI.goAt hr ht trivial (.inl rfl) rfl rfl (fun _ _ => rfl) hc
    | locked lk => exact hI.goAt hr ht trivial (.inl rfl) rfl rfl (fun _ _ => rfl) hc
    | _ => trivial
  | kill pid | fork =>
    refine ensures_guard ?_
    rintro rfl
    exact hI.goAt hr ht trivial (.inl rfl) rfl rfl (fun _ _ => rfl) hc
  | exit status =>
    refine ensures_guard ?_
    rintro rfl
    split
    · exact .inr rfl
    · exact acquire_goAt hI hr ht trivial rfl rfl rfl
  | wait | waitx => exact waitCall_ensures hI hr ht
  | setkilled =>
    refine ensures_guard ?_
    rintro rfl
    exact critical_goAt hI hr ht (by simp [Pc.lock]) (set_quiet rfl) trivial (.inl rfl) rfl
  | settickets n =>
    exact ensures_guard fun _ =>
      hI.setMem (.of_state_eq (sysSettickets_state p (int n) s.mem))
  | setPriority q priority =>
    exact ensures_guard fun _ => hI.setMem (set_quiet rfl)

end

end
end Xv6.Sched
