import Xv6.Sched.Inv

/-! # The scheduler thread keeps the invariant

One lemma for each loop of `scheduler()`. The builds that scan with the lock of one process share
`tryProc`; PBS keeps the lock of its candidate and swaps it for the lock of a better one; MLFQ
dispatches what it has popped, so it needs the popped process to be `RUNNABLE` and popped by no
other hart.
-/

namespace Xv6.Sched
set_option autoImplicit false
open Handover (Act handLock)
open Outcome (ensures_bind)

/-- What may stop the kernel: under MLFQ a queue may be indexed outside its bounds or yield a null
process; in every build `init` may exit. -/
def Allowed (b : Build) (f : Failure) : Prop := b = .mlfq ∨ f = .panic "init exiting"

/-- The process that the next step of the scheduler of `h` takes out of a queue. -/
def popTarget {H : Type} (s : State H) (h : H) : Option Slot :=
  match s.spc h with
  | .loop (.popCall q) => s.mem.queue.slot q 0
  | _ => none

/-- What the scheduler of `h` pops next is `RUNNABLE`, and no hart has popped it without having
locked it yet. -/
def FreshPop {H : Type} (s : State H) (h : H) : Prop :=
  ∀ p ∈ popTarget s h,
    (s.mem.proc p).state = .runnable ∧ ∀ g, s.spc g ≠ .loop (.popped p)

section
variable {H : Type} [DecidableEq H] {b : Build} {s : State H} {h : H}

omit [DecidableEq H] in
theorem update_restore {l : LockId} (hfree : s.locks l = none) :
    Function.update (Function.update s.locks l (some h)) l none = s.locks := by
  rw [Function.update_idem, ← hfree, Function.update_eq_self]

variable {l l₀ : Loc} {p : Slot} {i : ℕ} {prio : UInt64} {minproc : Option Slot}

omit [DecidableEq H] in
theorem Inv.cpu_loop (hI : Inv b s) (hr : s.run h = none) (hl : s.spc h = .loop l) :
    (s.cpu h).At none (lockCount l.lock) := by
  have := hI.cpu h
  rwa [State.act_none hr, hl] at this

omit [DecidableEq H] in
theorem Inv.loop_lock (_ : Inv b s) (hr : s.run h = none) (hl : s.spc h = .loop l) :
    (s.act h).lock LockId.proc = l.lock := by
  rw [State.act_none hr, hl]
  rfl

section
variable (hI : Inv b s)
include hI

omit [DecidableEq H] in
theorem Inv.build_eq (hl : s.spc h = .loop l) : l.build = b := by
  have := hI.sched.build h
  rwa [hl] at this

theorem Inv.goOn (hr : s.run h = none) (hl0 : s.spc h = .loop l₀) {C : H → Cpu}
    {L : LockId → Option H} (hbuild : l.build = l₀.build) (hwf : l.Wf) (hlock : l.lock = l₀.lock)
    (hL : L = s.locks) (hC : ∀ g, g ≠ h → C g = s.cpu g) (hc : (C h).At none (lockCount l₀.lock))
    (hpick : ∀ q, l.picked = some q → (s.mem.proc q).state = .runnable)
    (hpop : ∀ q, l = .popped q → ∀ g, s.spc g ≠ .loop (.popped q)) :
    Inv b { s.goSched h (.loop l) with locks := L, cpu := C } := by
  have hb := hI.build_eq hl0
  have hheld := hI.holds (hI.loop_lock hr hl0)
  refine hI.goLoop hr hl0 (hbuild.trans hb) hwf ?_ ?_ hC (hlock ▸ hc) hpick hpop
  · intro k hk
    exact .inr (hheld k (hlock ▸ hk))
  · rw [hL, hlock, Handover.handLock_self hheld]

theorem again_inv (hr : s.run h = none) (hl0 : s.spc h = .loop l₀) (hbuild : l.build = l₀.build)
    (hwf : l.Wf) (hno0 : l₀.lock = none) (hno : l.lock = none) (hpick : l.picked = none) :
    Inv b (again h l s) := by
  have hc := hI.cpu_loop hr hl0
  rw [hno0] at hc
  refine hI.goOn hr hl0 hbuild hwf (hno.trans hno0.symm) rfl (fun g hg => by simp [hg]) ?_ ?_ ?_
  · rw [hno0]
    exact ⟨by simpa using hc.proc, by simpa using hc.noff, by simp⟩
  · simp [hpick]
  · rintro q rfl
    simp [Loc.picked] at hpick

theorem tryProc_ensures (hr : s.run h = none) (hl0 : s.spc h = .loop l₀) {ready : Mem → Bool}
    (hbuild : l.build = l₀.build) (hwf : l.Wf) (hno0 : l₀.lock = none) (hno : l.lock = none)
    (hpick : l.picked = none) (hready : ready s.mem = true → (s.mem.proc p).state = .runnable)
    (hother : ∀ g, (s.spc g).picked ≠ some p) :
    (tryProc h p ready l s).Ensures (Allowed b) (Inv b) := by
  have hc := hI.cpu_loop hr hl0
  rw [hno0] at hc
  have hb := hI.build_eq hl0
  refine ensures_bind (acquire_ensures hc (hI.not_holds ?_) ?_)
  · rw [hI.loop_lock hr hl0, hno0]
    simp
  intro hfree c hc'
  split
  · next hrdy =>
    have hp := hready hrdy
    refine hI.dispatch hr hl0 (hbuild.trans hb) hpick (.inl hfree) ?_ ?_ ?_ hp
      (fun g _ => hother g) ?_ ?_
    · rw [hno0, Handover.handLock_acquire]
      rfl
    · intro g hg
      simp [hg]
    · refine ⟨?_, ?_, ?_⟩ <;> simp [hc'.noff, hc'.intr]
    · simp
    · intro q hq
      simp [hq]
  · refine ensures_bind (release_ensures (p := none) (n := 0) ?_ ?_ ?_)
    · simpa using hc'
    · simp
    · intro c2 hc2
      refine hI.goOn hr hl0 hbuild hwf (hno.trans hno0.symm) (update_restore hfree) ?_ ?_ ?_ ?_
      · intro g hg
        simp [hg]
      · rw [hno0]
        simpa using hc2
      · simp [hpick]
      · rintro q rfl
        simp [Loc.picked] at hpick

omit [DecidableEq H] in
theorem Inv.nothing_picked (hb : b ≠ .pbs) (hb' : b ≠ .mlfq) (g : H) (p : Slot) :
    (s.spc g).picked ≠ some p := by
  intro hp
  have hbuild := hI.sched.build g
  cases hg : s.spc g with
  | loop l =>
    rw [hg] at hp hbuild
    cases l with
    | pbs => exact hb hbuild.symm
    | popped => exact hb' hbuild.symm
    | _ => simp [SchedPc.picked, Loc.picked] at hp
  | swtch | ret => simp [hg, SchedPc.picked] at hp

theorem rrStep_ensures (hr : s.run h = none) (hl : s.spc h = .loop (.rr i)) :
    (rrStep h i s).Ensures (Allowed b) (Inv b) := by
  obtain rfl : Build.rr = b := hI.build_eq hl
  rw [rrStep]
  split
  · exact tryProc_ensures hI hr hl rfl trivial rfl rfl rfl (by simp [isRunnable])
      fun g => hI.nothing_picked (by simp) (by simp) g _
  · exact again_inv hI hr hl rfl trivial rfl rfl rfl

theorem fcfsStep_ensures (hr : s.run h = none) {flag : Bool} {t : UInt32}
    (hl : s.spc h = .loop (.fcfs i p flag t)) :
    (fcfsStep h i p flag t s).Ensures (Allowed b) (Inv b) := by
  rw [fcfsStep]
  split
  · exact hI.goOn hr hl rfl trivial rfl rfl (fun _ _ => rfl) (hI.cpu_loop hr hl)
      (by simp [Loc.picked]) (by simp)
  · exact again_inv hI hr hl rfl trivial rfl rfl rfl

theorem fcfsTryStep_ensures (hr : s.run h = none) {flag : Bool} {t : UInt32}
    (hl : s.spc h = .loop (.fcfsTry i p flag t)) :
    (fcfsTryStep h i p flag t s).Ensures (Allowed b) (Inv b) := by
  obtain rfl : Build.fcfs = b := hI.build_eq hl
  exact tryProc_ensures hI hr hl rfl trivial rfl rfl rfl (by simp [isRunnable])
    fun g => hI.nothing_picked (by simp) (by simp) g _

theorem lbsStep_ensures (hr : s.run h = none) {r : UInt32} (hl : s.spc h = .loop (.lbs i)) :
    (lbsStep h i r s).Ensures (Allowed b) (Inv b) := by
  obtain rfl : Build.lbs = b := hI.build_eq hl
  rw [lbsStep]
  split
  · refine tryProc_ensures hI hr hl rfl trivial rfl rfl rfl ?_
      fun g => hI.nothing_picked (by simp) (by simp) g _
    intro hready
    simp only [isRunnable, Bool.and_eq_true, decide_eq_true_eq] at hready
    exact hready.1
  · exact again_inv hI hr hl rfl trivial rfl rfl rfl

end

/-! ## PBS -/

omit [DecidableEq H] in
theorem Inv.picked_locked (hI : Inv .pbs s) {g : H} (hp : (s.spc g).picked = some p) :
    s.locks (.proc p) = some g := by
  have hb := hI.sched.build g
  cases hg : s.spc g with
  | loop l =>
    rw [hg] at hp hb
    cases l with
    | pbs i m prio =>
      obtain rfl : m = some p := hp
      have hrun : s.run g = none := by
        cases hr : s.run g with
        | none => rfl
        | some q =>
          obtain ⟨l, hl⟩ := hI.home g q hr
          simp [hg] at hl
      exact hI.holds (hI.loop_lock hrun hg) _ rfl
    | _ => simp [SchedPc.loc, Loc.build] at hb
  | swtch | ret => simp [hg, SchedPc.picked] at hp

section
variable (hI : Inv b s) (hr : s.run h = none)
include hI hr

omit [DecidableEq H] in
theorem Inv.pbs_candidate {m : Slot} (hl : s.spc h = .loop (.pbs i (some m) prio)) :
    m.val < i ∧ (s.mem.proc m).state = .runnable ∧ s.locks (.proc m) = some h := by
  have hwf := hI.sched.wf h
  rw [hl] at hwf
  exact ⟨hwf, hI.sched.picked h m (by rw [hl]; rfl), hI.holds (hI.loop_lock hr hl) _ rfl⟩

theorem pbsLook_ensures (hp : p.val = i) (hl : s.spc h = .loop (.pbs i minproc prio)) :
    (pbsLook h i p minproc prio s).Ensures (Allowed b) (Inv b) := by
  obtain rfl : Build.pbs = b := hI.build_eq hl
  have hc := hI.cpu_loop hr hl
  have hnot : s.locks (.proc p) ≠ some h := by
    refine hI.not_holds ?_
    rw [hI.loop_lock hr hl]
    cases minproc with
    | none => simp [Loc.lock]
    | some m =>
      have hlt := (hI.pbs_candidate hr hl).1
      intro he
      obtain rfl : m = p := by simpa [Loc.lock] using he
      omega
  refine ensures_bind (acquire_ensures hc hnot ?_)
  intro hfree c hc'
  have hwf' : ∀ prio', (Loc.pbs (i + 1) minproc prio').Wf := by
    intro prio'
    cases minproc with
    | none => trivial
    | some m => exact Nat.lt_succ_of_lt (hI.pbs_candidate hr hl).1
  -- giving the lock of `p` back and keeping the candidate
  have hkeep : ∀ m : Mem, (∀ q, (m.proc q).state = (s.mem.proc q).state) →
      (release h (.proc p) { (s.setCpu h c).setLock (.proc p) (some h) with mem := m }).Ensures
        (Allowed .pbs) fun t => Inv .pbs (t.goSched h (.loop (.pbs (i + 1) minproc prio))) := by
    intro m hm
    refine release_ensures
      (by simpa using hc') (by simp) ?_
    intro c2 hc2
    refine (hI.setMem (.of_state_eq hm)).goOn hr hl rfl (hwf' prio) ?_ (update_restore hfree) ?_ ?_
      ?_ (by simp)
    · cases minproc <;> rfl
    · intro g hg
      simp [hg]
    · simpa using hc2
    · intro q hq
      exact (hm q).trans (hI.sched.picked h q (by rw [hl]; exact hq))
  split
  · exact ensures_bind (hkeep _ fun _ => rfl)
  · next hrun =>
    have hrun : (s.mem.proc p).state = .runnable := not_not.mp hrun
    have hsame : ∀ q, ((s.mem.set p fun x =>
        { x with niceness := (niceness x).toNat }).proc q).state = (s.mem.proc q).state := by
      intro q
      by_cases hq : q = p
      · simp [hq]
      · simp [hq]
    have hI' := hI.setMem (.of_state_eq hsame)
    -- taking `p` as the candidate
    have htake : ∀ prio' (C : H → Cpu) (L : LockId → Option H), (∀ g, g ≠ h → C g = s.cpu g) →
        (C h).At none 1 → L = handLock s.locks h (Loc.pbs i minproc prio).lock (some (.proc p)) →
        Inv .pbs { s.goSched h (.loop (.pbs (i + 1) (some p) prio')) with
          mem := s.mem.set p fun x => { x with niceness := (niceness x).toNat }
          locks := L, cpu := C } := by
      intro prio' C L hC hc2 hL
      refine hI'.goLoop hr hl rfl (show p.val < i + 1 by omega) ?_ hL hC hc2 ?_
        (by simp)
      · intro k hk
        cases hk
        exact .inl hfree
      · intro q hq
        cases hq
        exact (hsame p).trans hrun
    split
    · refine htake _ _ _ ?_ ?_ ?_
      · intro g hg
        simp [hg]
      · simpa [Loc.lock] using hc'
      · exact Handover.handLock_acquire.symm
    · next m =>
      obtain ⟨hlt, -, hheld⟩ := hI.pbs_candidate hr hl
      have hmp : m ≠ p := by
        rintro rfl
        omega
      dsimp only
      split
      · refine ensures_bind (release_ensures (p := none) (n := 1) ?_ ?_ ?_)
        · simpa [Loc.lock] using hc'
        · simp [hmp, hheld]
        · intro c2 hc2
          refine htake _ _ _ ?_ ?_ ?_
          · intro g hg
            simp [hg]
          · simpa using hc2
          · exact (Handover.handLock_swap (by simpa using hmp)).symm
      · exact ensures_bind (hkeep _ hsame)

theorem pbsEnd_inv (hl : s.spc h = .loop (.pbs i minproc prio)) : Inv b (pbsEnd h s minproc) := by
  obtain rfl : Build.pbs = b := hI.build_eq hl
  cases minproc with
  | none => exact again_inv hI hr hl rfl trivial rfl rfl rfl
  | some m =>
    obtain ⟨-, hrun, hheld⟩ := hI.pbs_candidate hr hl
    have hc : (s.cpu h).At none 1 := hI.cpu_loop hr hl
    refine hI.dispatch hr hl rfl rfl (.inr hheld) ?_ ?_ ?_ hrun ?_ ?_ ?_
    · exact (Handover.handLock_self fun k hk => by
        cases hk
        exact hheld).symm
    · intro g hg
      simp [hg]
    · refine ⟨?_, ?_, ?_⟩ <;> simp [hc.noff, hc.intr]
    · intro g hg hp
      exact hg (Option.some.inj ((hI.picked_locked hp).symm.trans hheld))
    · simp
    · intro q hq
      simp [hq]

theorem pbsStep_ensures (hl : s.spc h = .loop (.pbs i minproc prio)) :
    (pbsStep h i minproc prio s).Ensures (Allowed b) (Inv b) := by
  rw [pbsStep]
  split
  · exact pbsLook_ensures hI hr rfl hl
  · exact pbsEnd_inv hI hr hl

end

/-! ## MLFQ -/

theorem mlfqScan_ensures (hI : Inv .mlfq s) (hr : s.run h = none) (hl0 : s.spc h = .loop l₀)
    {body : Slot → Mem → Outcome Failure Mem} (hbuild : l.build = .mlfq) (hwf : l.Wf)
    (hno0 : l₀.lock = none) (hno : l.lock = none) (hpick : l.picked = none)
    (hbody : ∀ m, body p s.mem = .ok m → ∀ q, (m.proc q).state = (s.mem.proc q).state) :
    (mlfqScan body h p l s).Ensures (Allowed .mlfq) (Inv .mlfq) := by
  have hc := hI.cpu_loop hr hl0
  rw [hno0] at hc
  refine ensures_bind (acquire_ensures hc (hI.not_holds ?_) ?_)
  · rw [hI.loop_lock hr hl0, hno0]
    simp
  intro hfree c hc'
  refine ensures_bind ?_
  cases hm : body p s.mem with
  | blocked => simp [hm]
  | fail e => simp [hm, Allowed]
  | ok m =>
    simp only [State.setLock_mem, State.setCpu_mem, hm, Outcome.ensures_ok]
    refine ensures_bind (release_ensures (by simpa using hc')
      (by simp) ?_)
    intro c2 hc2
    refine (hI.setMem (.of_state_eq (hbody m hm))).goOn hr hl0 ?_ hwf (hno.trans hno0.symm)
      (update_restore hfree) ?_ ?_ ?_ ?_
    · rw [hbuild, hI.build_eq hl0]
    · intro g hg
      simp [hg]
    · rw [hno0]
      simpa using hc2
    · simp [hpick]
    · rintro q rfl
      simp [Loc.picked] at hpick

theorem fillOne_state {m m' : Mem} (hm : fillOne p m = .ok m') (q : Slot) :
    (m'.proc q).state = (m.proc q).state := by
  simp only [fillOne] at hm
  split at hm
  · exact pushQueue_state hm q
  · cases hm
    rfl

section
variable (hI : Inv b s) (hr : s.run h = none)
include hI hr

theorem ageStep_ensures (hl : s.spc h = .loop (.age i)) :
    (ageStep h i s).Ensures (Allowed b) (Inv b) := by
  obtain rfl : Build.mlfq = b := hI.build_eq hl
  rw [ageStep]
  split
  · exact mlfqScan_ensures hI hr hl rfl trivial rfl rfl rfl fun m hm => ageOne_state hm
  · exact hI.goOn hr hl rfl trivial rfl rfl (fun _ _ => rfl) (hI.cpu_loop hr hl)
      (by simp [Loc.picked]) (by simp)

theorem fillStep_ensures (hl : s.spc h = .loop (.fill i)) :
    (fillStep h i s).Ensures (Allowed b) (Inv b) := by
  obtain rfl : Build.mlfq = b := hI.build_eq hl
  rw [fillStep]
  split
  · exact mlfqScan_ensures hI hr hl rfl trivial rfl rfl rfl fun m hm => fillOne_state hm
  · exact hI.goOn hr hl rfl trivial rfl rfl (fun _ _ => rfl) (hI.cpu_loop hr hl)
      (by simp [Loc.picked]) (by simp)

theorem popStep_ensures {qpos : ℕ} (hl : s.spc h = .loop (.pop qpos)) :
    (popStep h qpos s).Ensures (Allowed b) (Inv b) := by
  have hgo : ∀ l : Loc, l.build = .mlfq → l.lock = none → l.picked = none → l.Wf →
      Inv b (s.goSched h (.loop l)) := by
    intro l hb hno hpick hwf
    refine hI.goOn hr hl hb hwf hno rfl (fun _ _ => rfl) (hI.cpu_loop hr hl) (by simp [hpick]) ?_
    rintro q rfl
    simp [Loc.picked] at hpick
  rw [popStep]
  split
  · split
    · exact hgo _ rfl rfl rfl trivial
    · exact hgo _ rfl rfl rfl trivial
  · exact again_inv hI hr hl rfl trivial rfl rfl rfl

theorem popCallStep_ensures {qpos : ℕ} (hl : s.spc h = .loop (.popCall qpos))
    (hfresh : FreshPop s h) : (popCallStep h qpos s).Ensures (Allowed b) (Inv b) := by
  obtain rfl : Build.mlfq = b := hI.build_eq hl
  refine ensures_bind ?_
  cases hpop : popQueue qpos s.mem with
  | blocked => trivial
  | fail e => exact .inl rfl
  | ok pm =>
    obtain ⟨p, m⟩ := pm
    obtain ⟨hrun, huniq⟩ := hfresh p (by
      simp only [popTarget, hl, popQueue_head hpop, Option.mem_some_iff])
    have hsame := popQueue_state hpop
    refine (hI.setMem (.of_state_eq hsame)).goOn hr hl rfl trivial rfl rfl (fun _ _ => rfl)
      (hI.cpu_loop hr hl) ?_ ?_
    · intro q hq
      cases hq
      exact (hsame p).trans hrun
    · intro q hq
      obtain rfl := Loc.popped.inj hq
      exact huniq

theorem poppedStep_ensures (hl : s.spc h = .loop (.popped p)) :
    (poppedStep h p s).Ensures (Allowed b) (Inv b) := by
  obtain rfl : Build.mlfq = b := hI.build_eq hl
  refine ensures_bind (acquire_ensures (hI.cpu_loop hr hl) (hI.not_holds ?_) ?_)
  · rw [hI.loop_lock hr hl]
    simp [Loc.lock]
  intro hfree c hc
  have hrun : (s.mem.proc p).state = .runnable := hI.sched.picked h p (by rw [hl]; rfl)
  refine hI.dispatch hr hl rfl rfl (.inl hfree) ?_ ?_ ?_ hrun ?_ ?_ ?_
  · exact Handover.handLock_acquire.symm
  · intro g hg
    simp [hg]
  · refine ⟨?_, ?_, ?_⟩ <;> simp [hc.noff, hc.intr, Loc.lock]
  · -- no other hart has popped `p`
    intro g hg hp
    cases hspc : s.spc g with
    | loop l =>
      have hb := hI.build_eq hspc
      rw [hspc] at hp
      cases l with
      | popped q =>
        obtain rfl : q = p := Option.some.inj hp
        exact hg (hI.sched.popped g h q hspc hl)
      | pbs => simp [Loc.build] at hb
      | _ => simp [SchedPc.picked, Loc.picked] at hp
    | swtch | ret => simp [hspc, SchedPc.picked] at hp
  · simp
  · intro q hq
    simp [hq]

/-! ## The whole scheduler thread -/

theorem schedStep_ensures (r : UInt32) (hfresh : FreshPop s h) :
    (schedStep h r s).Ensures (Allowed b) (Inv b) := by
  unfold schedStep
  cases hl : s.spc h with
  | loop l =>
    cases l with
    | rr i => exact rrStep_ensures hI hr hl
    | fcfs i p flag t => exact fcfsStep_ensures hI hr hl
    | fcfsTry i p flag t => exact fcfsTryStep_ensures hI hr hl
    | pbs i m prio => exact pbsStep_ensures hI hr hl
    | lbs i => exact lbsStep_ensures hI hr hl
    | age i => exact ageStep_ensures hI hr hl
    | fill i => exact fillStep_ensures hI hr hl
    | pop q => exact popStep_ensures hI hr hl
    | popCall q => exact popCallStep_ensures hI hr hl hfresh
    | popped p => exact poppedStep_ensures hI hr hl
  | swtch p l => exact hI.swtch hr hl
  | ret p l =>
    have hact : s.act h = .back p := by rw [State.act_none hr, hl]; rfl
    have hc : (s.cpu h).At (some p) 1 := by
      have := hI.cpu h
      rwa [hact] at this
    refine ensures_bind (release_ensures (p := none) (n := 0) ?_ ?_ ?_)
    · refine ⟨?_, ?_, ?_⟩ <;> simp [hc.noff, hc.intr]
    · exact hI.holds (by rw [hact]; rfl) _ rfl
    · intro c hc'
      refine hI.ret hr hl ?_ ?_
      · intro g hg
        simp [hg]
      · simpa using hc'

end

end
end Xv6.Sched
