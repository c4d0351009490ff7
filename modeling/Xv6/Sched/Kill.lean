import Mathlib.Order.Fin.Basic
import Xv6.Sched.Effect
import Xv6.Sched.Priority
import Xv6.Sched.Writes

/-! # `kill` and the slots that are not in use

`kill` compares the pid of every slot, the `UNUSED` ones included, and `freeproc` leaves pid 0 in
these. `allocproc` does not write `killed`, so that a process starts with what the last user of its
slot, or a stray `kill(0)`, has left there.
-/

namespace Xv6.Sched
set_option autoImplicit false
open Function (update update_self update_of_ne update_eq_self)

/-! ## One call on a table at rest -/

def killLoop (pid : ℕ) (m : Mem) : List Slot → ℤ × Mem
  | [] => (-1, m)
  | q :: l => if (m.proc q).pid = pid then (0, killOne pid q m) else killLoop pid m l

def kill (pid : ℕ) (m : Mem) : ℤ × Mem := killLoop pid m (List.finRange NPROC)

/-- What `kill` writes: `killed`, and `RUNNABLE` for `SLEEPING`. -/
def killedProc (x : Proc) : Proc :=
  { x with killed := true, state := if x.state = .sleeping then .runnable else x.state }

/-- `killed` is set in the slot of a live process with that pid, which is woken if it sleeps, and 0
is returned; without such a process nothing changes and -1 is returned. -/
def KillsNamed (pid : ℕ) (m : Mem) (r : ℤ × Mem) : Prop :=
  (r.1 = 0 ∧ ∃ q, m.Named pid q ∧ r.2.proc = update m.proc q (killedProc (m.proc q))) ∨
  (r.1 = -1 ∧ (¬ ∃ q, m.Named pid q) ∧ r.2 = m)

def FirstWithPid (pid : ℕ) (m : Mem) (q : Slot) : Prop :=
  (m.proc q).pid = pid ∧ ∀ r, r < q → (m.proc r).pid ≠ pid

/-- The first slot with that pid, if there is one, is in use. Or it is marked as killed already, and
so is a live process with that pid that does not sleep: then the call changes nothing. -/
def FirstInUse (pid : ℕ) (m : Mem) : Prop :=
  ∀ q, FirstWithPid pid m q → (m.proc q).state ≠ .unused ∨
    (m.proc q).killed = true ∧
      ∃ r, m.Named pid r ∧ (m.proc r).killed = true ∧ (m.proc r).state ≠ .sleeping

variable {pid : ℕ}

theorem killOne_of_pid {m : Mem} {q : Slot} (hq : (m.proc q).pid = pid) :
    (killOne pid q m).proc = update m.proc q (killedProc (m.proc q)) := by
  rw [killOne, if_pos hq]
  rfl

theorem killLoop_cases (pid : ℕ) (m : Mem) (l : List Slot) (hl : l.Pairwise (· < ·)) :
    (killLoop pid m l = (-1, m) ∧ ∀ q ∈ l, (m.proc q).pid ≠ pid) ∨
    ∃ q ∈ l, (m.proc q).pid = pid ∧ (∀ r ∈ l, r < q → (m.proc r).pid ≠ pid) ∧
      killLoop pid m l = (0, killOne pid q m) := by
  induction l with
  | nil => exact .inl ⟨rfl, by simp⟩
  | cons q l ih =>
    obtain ⟨hq, hl⟩ := List.pairwise_cons.mp hl
    rw [killLoop]
    by_cases hpid : (m.proc q).pid = pid
    · rw [if_pos hpid]
      refine .inr ⟨q, List.mem_cons_self, hpid, ?_, rfl⟩
      intro r hr hlt
      rcases List.mem_cons.mp hr with rfl | hr
      · exact absurd hlt (lt_irrefl r)
      · exact absurd hlt (lt_asymm (hq r hr))
    · rw [if_neg hpid]
      rcases ih hl with ⟨hloop, hnone⟩ | ⟨f, hf, hfpid, hfirst, hloop⟩
      · refine .inl ⟨hloop, ?_⟩
        intro r hr
        rcases List.mem_cons.mp hr with rfl | hr
        · exact hpid
        · exact hnone r hr
      · refine .inr ⟨f, List.mem_cons_of_mem q hf, hfpid, ?_, hloop⟩
        intro r hr hlt
        rcases List.mem_cons.mp hr with rfl | hr
        · exact hpid
        · exact hfirst r hr hlt

theorem kill_cases (pid : ℕ) (m : Mem) :
    (kill pid m = (-1, m) ∧ ∀ q, (m.proc q).pid ≠ pid) ∨
    ∃ q, FirstWithPid pid m q ∧ kill pid m = (0, killOne pid q m) := by
  rcases killLoop_cases pid m _ (List.pairwise_lt_finRange NPROC) with
    ⟨hkill, hnone⟩ | ⟨q, -, hq, hfirst, hkill⟩
  · exact .inl ⟨hkill, fun q => hnone q (List.mem_finRange q)⟩
  · exact .inr ⟨q, ⟨hq, fun r hr => hfirst r (List.mem_finRange r) hr⟩, hkill⟩

theorem FirstWithPid.eq {m : Mem} {q r : Slot} (hq : FirstWithPid pid m q)
    (hr : FirstWithPid pid m r) : q = r := by
  rcases lt_trichotomy q r with hlt | heq | hlt
  · exact absurd hq.1 (hr.2 q hlt)
  · exact heq
  · exact absurd hr.1 (hq.2 r hlt)

theorem killedProc_eq_self {x : Proc} :
    killedProc x = x ↔ x.killed = true ∧ x.state ≠ .sleeping := by
  obtain ⟨st, _⟩ := x
  simp only [killedProc, Proc.mk.injEq]
  cases st <;> simp [eq_comm]

theorem killsNamed_iff (pid : ℕ) (m : Mem) :
    KillsNamed pid m (kill pid m) ↔ FirstInUse pid m := by
  rcases kill_cases pid m with ⟨hkill, hnone⟩ | ⟨q, hq, hkill⟩
  · have hn : ¬ ∃ q, m.Named pid q := by
      rintro ⟨q, hq⟩
      exact hnone q hq.2
    rw [hkill]
    exact iff_of_true (.inr ⟨rfl, hn, rfl⟩) fun q hq => absurd hq.1 (hnone q)
  · rw [hkill]
    constructor
    · rintro (⟨-, r, hr, hproc⟩ | ⟨hret, -⟩)
      · intro f hf
        obtain rfl := hf.eq hq
        by_cases hrf : r = f
        · subst hrf
          exact .inl hr.1
        -- the two writes agree only if neither changes anything
        · rw [killOne_of_pid hf.1] at hproc
          have hf' := congrFun hproc f
          have hr' := congrFun hproc r
          rw [update_self, update_of_ne (Ne.symm hrf)] at hf'
          rw [update_self, update_of_ne hrf] at hr'
          have hrk := killedProc_eq_self.mp hr'.symm
          exact .inr ⟨(killedProc_eq_self.mp hf').1, r, hr, hrk.1, hrk.2⟩
      · exact absurd hret (by simp)
    · intro hfirst
      left
      refine ⟨rfl, ?_⟩
      by_cases hlive : (m.proc q).state = .unused
      · obtain ⟨hkilled, r, hr, hrk, hrs⟩ := (hfirst q hq).resolve_left (not_not.mpr hlive)
        have hself : killedProc (m.proc q) = m.proc q :=
          killedProc_eq_self.mpr ⟨hkilled, by simp [hlive]⟩
        have hother : killedProc (m.proc r) = m.proc r := killedProc_eq_self.mpr ⟨hrk, hrs⟩
        refine ⟨r, hr, ?_⟩
        rw [killOne_of_pid hq.1, hself, hother, update_eq_self, update_eq_self]
      · exact ⟨q, ⟨hlive, hq.1⟩, killOne_of_pid hq.1⟩

/-- A call in the kernel model that nothing disturbs leaves the table that the loop computes. -/
theorem kill_run {H : Type} [DecidableEq H] {b : Build} {s : State H} {h : H} {p : Slot}
    {i k : ℕ} (ok : Bool) (hk : i + k = NPROC) (hr : s.run h = some p)
    (ht : s.thread p = .at (.kill pid i)) (hfree : ∀ q, s.locks (.proc q) = none)
    (hc : (s.cpu h).At (some p) 0) :
    ∃ n t, (sys b H).Run s (List.replicate n (.go h ok)) t ∧ t.thread p = .at .user ∧
      t.mem = (killLoop pid s.mem ((List.finRange NPROC).drop i)).2 := by
  induction k generalizing i s with
  | zero =>
    have hi : ¬ i < NPROC := by omega
    refine ⟨1, s.goThread p (.at .user), .cons ?_ (.nil _), by simp, ?_⟩
    · simp only [sys, step, hr, ht, pcStep, killStep, dif_neg hi]
      rfl
    · rw [List.drop_of_length_le (by simp; omega)]
      rfl
  | succ k ih =>
    have hi : i < NPROC := by omega
    have hdrop : (List.finRange NPROC).drop i = ⟨i, hi⟩ :: (List.finRange NPROC).drop (i + 1) := by
      rw [List.drop_eq_getElem_cons (by simpa using hi), List.getElem_finRange]
      rfl
    obtain ⟨c, hcrit, hc'⟩ := critical_ok (f := killOne pid ⟨i, hi⟩) hc (hfree ⟨i, hi⟩)
    have hstep : step b s (.go h ok) = .ok (State.goThread
        { s.setCpu h c with mem := killOne pid ⟨i, hi⟩ s.mem } p
        (.at (if decide ((s.mem.proc ⟨i, hi⟩).pid = pid) then .user else .kill pid (i + 1)))) := by
      simp only [step, hr, ht, pcStep, killStep, dif_pos hi, hcrit]
      rfl
    rw [hdrop, killLoop]
    by_cases hpid : (s.mem.proc ⟨i, hi⟩).pid = pid
    · rw [if_pos hpid]
      exact ⟨1, _, .cons hstep (.nil _), by simp [hpid], rfl⟩
    · rw [if_neg hpid]
      have hmem : killOne pid ⟨i, hi⟩ s.mem = s.mem := by rw [killOne, if_neg hpid]
      rw [hmem, decide_eq_false hpid] at hstep
      obtain ⟨n, t, hrun, hthread, htable⟩ := ih (i := i + 1)
        (s := State.goThread { s.setCpu h c with mem := s.mem } p (.at (.kill pid (i + 1))))
        (by omega) hr (by simp) hfree (by simpa using hc')
      exact ⟨n + 1, t, .cons hstep hrun, hthread, htable⟩

/-! ## The slots that are not in use, over whole runs -/

section
variable {H : Type} [DecidableEq H] {b : Build} {s s' : State H}

/-- A slot that is not in use has pid 0; where `K` is assumed, it is not marked as killed. -/
def FreeSlot (K : Prop) (x : Proc) : Prop :=
  x.state = .unused → x.pid = 0 ∧ (K → x.killed = false)

def Thread.killing (q : Slot) : Thread → Option ℕ
  | .at (.kill pid i) => if i = q.val then some pid else none
  | _ => none

/-- The slot that `kill` is about to mark is in use. -/
def KillsInUse (s : State H) : Event H → Prop
  | .go h _ => ∀ p q, s.run h = some p → (s.thread p).killing q = some (s.mem.proc q).pid →
      (s.mem.proc q).state ≠ .unused
  | _ => True

instance (s : State H) : (e : Event H) → Decidable (KillsInUse s e)
  | .go _ _ => inferInstanceAs (Decidable (∀ _ _ : Slot, _ → _ → _))
  | .sched _ _ | .call _ _ | .intrWakeup _ _ _ | .intrTicks _ | .intrTime _ _ | .setIntr _ _ =>
    isTrue trivial

omit [DecidableEq H] in
theorem FreeSlot.write {K : Prop} {e : Event H} {q : Slot} {y : Proc}
    (hx : FreeSlot K (s.mem.proc q)) (hw : Write s e q y) (hkill : K → KillsInUse s e)
    (hself : K → ∀ h, s.run h = some q → s.thread q = .at .user →
      (s.mem.proc q).state ≠ .unused) : FreeSlot K y := by
  intro hy
  cases hw with
  | same | queue | niceness | resumed | parent | tickets | priority => exact hx hy
  | dispatch h l ct wait hl hrun => cases hy
  | leave h pc st chan status hr ht hst => exact absurd hy hst
  | wake hs => cases hy
  | ready h p hr ht => cases hy
  | kill h ok p pid he hr ht hp =>
    subst he
    rw [killOne_of_pid hp, update_self] at hy ⊢
    have hunused : (s.mem.proc q).state = .unused := by
      cases hst : (s.mem.proc q).state <;> simp [killedProc, hst] at hy ⊢
    refine ⟨(hx hunused).1, fun hK => absurd hunused (hkill hK p q hr ?_)⟩
    simp [ht, Thread.killing, hp]
  | setkilled h hr ht =>
    refine ⟨(hx hy).1, fun hK => absurd hy (hself hK h hr ht)⟩
  | alloc h p hr ht hq => simp [allocOne] at hy
  | allocFail p => simp [allocFail, freeproc]
  | reap hz => simp [freeproc]
  | time =>
    have hunused : (s.mem.proc q).state = .unused := by simpa [updateTime] using hy
    simpa [updateTime] using hx hunused

theorem bootMem_freeSlot (K : Prop) (q : Slot) : FreeSlot K (bootMem.proc q) := by
  intro hq
  by_cases hi : q = initproc
  · subst hi
    simp [bootMem] at hq
  · simp [bootMem, hi, Proc.zero]

theorem pid_of_unused (hs : (sys b H).Reachable s) (q : Slot)
    (hq : (s.mem.proc q).state = .unused) : (s.mem.proc q).pid = 0 := by
  have hall : ∀ q, FreeSlot False (s.mem.proc q) := by
    refine hs.invariant (I := fun s => ∀ q, FreeSlot False (s.mem.proc q)) ?_ ?_
    · rintro _ rfl
      exact bootMem_freeSlot False
    · intro s e s' hI hstep q
      exact (hI q).write (step_writes hstep q) (fun h => h.elim) (fun h => h.elim)
  exact (hall q hq).1

/-- The steps in question. Under MLFQ a process must not be run by two harts at once: it could be
freed by one of them while the other still runs it. -/
def CleanStep (b : Build) (s : State H) (e : Event H) : Prop :=
  KillsInUse s e ∧ (b = .mlfq → Fresh s e)

theorem clean_of_reachable (hs : ((sys b H).restrict (CleanStep b)).Reachable s) :
    Inv b s ∧ ∀ q, FreeSlot True (s.mem.proc q) := by
  refine hs.invariant (I := fun s => Inv b s ∧ ∀ q, FreeSlot True (s.mem.proc q)) ?_ ?_
  · rintro _ rfl
    exact ⟨boot_inv, bootMem_freeSlot True⟩
  · rintro s e s' ⟨hI, hfree⟩ ⟨⟨hkill, hmlfq⟩, hstep⟩
    have hfresh : Fresh s e := by
      by_cases hb : b = .mlfq
      · exact hmlfq hb
      · exact hI.fresh hb e
    refine ⟨(step_ensures hI e hfresh).of_ok hstep, ?_⟩
    intro q
    refine (hfree q).write (step_writes hstep q) (fun _ => hkill) ?_
    -- a process that executes is `RUNNING`
    intro _ h hr ht
    rw [hI.running_at hr ht]
    simp

theorem forkAlloc_created {h : H} {ok : Bool} {p np : Slot} {i : ℕ} (hr : s.run h = some p)
    (ht : s.thread p = .at (.forkAlloc i)) (hs : step b s (.go h ok) = .ok s')
    (hnp : s'.thread p = .at (.forkParent np)) :
    (s.mem.proc np).state = .unused ∧ s'.mem = allocOne p np s.mem := by
  have hstep : (forkAllocStep h p i ok s).Ensures (fun _ => True) fun t =>
      t.thread p = .at (.forkParent np) →
        (s.mem.proc np).state = .unused ∧ t.mem = allocOne p np s.mem := by
    rw [forkAllocStep]
    split
    · next hi =>
      dsimp only
      split
      · next hq =>
        split
        · refine Outcome.ensures_bind (critical_frame ?_)
          intro L C hnp
          obtain rfl : ⟨i, hi⟩ = np := by simpa using hnp
          exact ⟨hq, rfl⟩
        · refine Outcome.ensures_bind (critical_frame ?_)
          intro L C hnp
          simp at hnp
      · refine Outcome.ensures_bind (critical_frame ?_)
        intro L C hnp
        simp at hnp
    · intro hnp
      simp at hnp
  simp only [step, hr, ht, pcStep] at hs
  exact hstep.of_ok hs hnp

/-- On every reachable table `kill` acts on the named live process just when the first slot with
that pid is in use, which it is for every pid but 0. And in every run in which no `kill` marks a
slot that is not in use, each process that `fork` creates starts unmarked. -/
theorem kill_named_iff (b : Build) (H : Type) [DecidableEq H] :
    (∀ s : State H, (sys b H).Reachable s → ∀ pid,
      (KillsNamed pid s.mem (kill pid s.mem) ↔ FirstInUse pid s.mem) ∧
      (pid ≠ 0 → FirstInUse pid s.mem)) ∧
    (∀ (s s' : State H) (h : H) (ok : Bool) (p np : Slot) (i : ℕ),
      ((sys b H).restrict (CleanStep b)).Reachable s → s.run h = some p →
      s.thread p = .at (.forkAlloc i) → step b s (.go h ok) = .ok s' →
      s'.thread p = .at (.forkParent np) → (s'.mem.proc np).killed = false) := by
  constructor
  · intro s hs pid
    refine ⟨killsNamed_iff pid s.mem, ?_⟩
    intro hpid q hq
    left
    intro hunused
    exact hpid (hq.1.symm.trans (pid_of_unused hs q hunused))
  · intro s s' h ok p np i hs hr ht hstep hnp
    obtain ⟨hunused, hm⟩ := forkAlloc_created hr ht hstep hnp
    have hfree := (clean_of_reachable hs).2 np hunused
    rw [hm, allocOne]
    simpa using hfree.2 trivial

end

instance (s : State Unit) (e : Event Unit) : Decidable (CleanStep .rr s e) :=
  decidable_of_iff (KillsInUse s e) ⟨fun h => ⟨h, fun hb => by cases hb⟩, And.left⟩

def forkOnce : List (Event Unit) :=
  [.sched () 0, .sched () 0, .go () true, .call () .fork, .go () true]

theorem kill_named_iff_forkOnce : FirstInUse 1 bootMem ∧
    KillsNamed 1 bootMem (kill 1 bootMem) ∧
    ∃ s s' : State Unit, ((sys .rr Unit).restrict (CleanStep .rr)).Reachable s ∧
      step .rr s (.go () true) = .ok s' ∧ s'.thread initproc = .at (.forkParent ⟨1, by decide⟩) ∧
      (s'.mem.proc ⟨1, by decide⟩).killed = false := by
  obtain ⟨hkill, hfork⟩ := kill_named_iff .rr Unit
  have hboot := hkill (boot .rr Unit) (.init rfl) 1
  refine ⟨hboot.2 (by decide), hboot.1.mpr (hboot.2 (by decide)), ?_⟩
  have hrun : ((TransSys.exec (fun s e => if CleanStep .rr s e then stepOk .rr s e else none)
      (boot .rr Unit) forkOnce).map fun s => decide (s.run () = some initproc ∧
        s.thread initproc = .at (.forkAlloc 1) ∧ ((stepOk .rr s (.go () true)).map fun s' =>
          decide (s'.thread initproc = .at (.forkParent ⟨1, by decide⟩))) = some true)) =
      some true := by
    decide +kernel
  obtain ⟨s, hs, hst⟩ := Option.map_eq_some_iff.mp hrun
  obtain ⟨hr, ht, hnext⟩ := of_decide_eq_true hst
  obtain ⟨s', hs', hst'⟩ := Option.map_eq_some_iff.mp hnext
  have hreach := TransSys.Reachable.of_exec (M := sys .rr Unit) (C := CleanStep .rr)
    (fun _ _ _ h => Outcome.result_eq_some.mp h) rfl hs
  have hstep := Outcome.result_eq_some.mp hs'
  have hnp := of_decide_eq_true hst'
  exact ⟨s, s', hreach, hstep, hnp, hfork s s' () true _ _ 1 hreach hr ht hstep hnp⟩

def killZeroFork : List (Event Unit) :=
  [.sched () 0, .sched () 0, .go () true, .call () (.kill 0), .go () true, .go () true,
    .call () .fork, .go () true, .go () true]

/-- `kill(0)` returns 0 and marks slot 1, which is not in use; the child that is then created there
starts with `killed` set. -/
theorem kill_zero_marks_child : kill 0 bootMem = (0, killOne 0 ⟨1, by decide⟩ bootMem) ∧
    (¬ ∃ q, bootMem.Named 0 q) ∧
    ∃ s : State Unit, (sys .rr Unit).Reachable s ∧
      s.thread initproc = .at (.forkParent ⟨1, by decide⟩) ∧
      (s.mem.proc ⟨1, by decide⟩).killed = true := by
  refine ⟨rfl, by decide, ?_⟩
  have hrun : ((TransSys.exec (stepOk .rr) (boot .rr Unit) killZeroFork).map fun s =>
      decide (s.thread initproc = .at (.forkParent ⟨1, by decide⟩) ∧
        (s.mem.proc ⟨1, by decide⟩).killed = true)) = some true := by
    decide +kernel
  obtain ⟨s, hs, hst⟩ := Option.map_eq_some_iff.mp hrun
  obtain ⟨ht, hk⟩ := of_decide_eq_true hst
  exact ⟨s, reachable_of_exec hs, ht, hk⟩

end Xv6.Sched
