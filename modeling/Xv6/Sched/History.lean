import Xv6.Sched.Reap

/-! # No child is lost

A history counts the calls of `exit` in each slot, and records, each time a slot is freed, which
life of the slot it was, how many of its processes had exited, who its parent was, and which process
freed it, in which function.
-/

namespace Xv6.Sched
set_option autoImplicit false

section
variable {H : Type} [DecidableEq H] {s s' : State H}

/-- What can turn a process into a zombie or free it. -/
inductive Ends (h : H) (s s' : State H) (q : Slot) : ProcState → Prop
  | exit (status : ℤ) (hr : s.run h = some q) (hp : s.thread q = .at (.exitLast status))
      (ht : s'.thread q = .sched .exit) : Ends h s s' q .zombie
  | reap (p : Slot) (x : Bool) (i : ℕ) (havekids : Bool) (hz : (s.mem.proc q).state = .zombie)
      (hr : s.run h = some p) (hp : s.thread p = .at (.waitScan x i havekids))
      (hpar : (s.mem.proc q).parent = some p) : Ends h s s' q .unused

theorem Effect.ends {h : H} (he : Effect h s s') {q : Slot} {st : ProcState}
    (hst : st = .zombie ∨ st = .unused) (hq : (s.mem.proc q).state ≠ st)
    (hq' : (s'.mem.proc q).state = st) : Ends h s s' q st := by
  have hsame : s'.mem ≠ s.mem := by
    intro hm
    rw [hm] at hq'
    exact hq hq'
  have hcalm : ¬ Calm s.mem s'.mem := by
    intro hm
    have hstage := (hm.proc q).stage
    rw [hq'] at hstage
    refine hq (ProcState.eq_of_stage hstage.symm ?_)
    rcases hst with rfl | rfl <;> simp [ProcState.stage]
  -- a step that writes another state, or the state of another process
  have hset : ∀ r (f : Proc → Proc), s'.mem = s.mem.set r f → (f (s.mem.proc r)).state ≠ st →
      False := by
    intro r f hm hf
    by_cases hqr : q = r
    · rw [hm, hqr, Mem.set_proc_self] at hq'
      exact hf hq'
    · rw [hm, Mem.set_proc_of_ne _ _ hqr] at hq'
      exact hq hq'
  have hkeep : ∀ r (f : Proc → Proc), s'.mem = s.mem.set r f →
      (f (s.mem.proc r)).state = (s.mem.proc r).state → False := by
    intro r f hm hf
    by_cases hqr : q = r
    · rw [hm, hqr, Mem.set_proc_self, hf] at hq'
      exact hq (hqr ▸ hq')
    · rw [hm, Mem.set_proc_of_ne _ _ hqr] at hq'
      exact hq hq'
  have hlive : ∀ st', st' = .used ∨ st' = .runnable ∨ st' = .sleeping → st' ≠ st := by
    rintro st' (rfl | rfl | rfl) rfl <;> simp at hst
  cases he with
  | calm hm ht hr => exact absurd hm hcalm
  | swtchIn p hr hm ht hr' => exact absurd hm hsame
  | swtchOut p ret hr hp hm ht hr' => exact absurd hm hsame
  | thread p hr hr' he =>
    cases he with
    | move t hm ht hcore | wake chan ret r hp hm hr ht => exact absurd hm hcalm
    | exit status hp hinit hm ht | reparentSkip status r hp hr hm ht
    | reparentEnd status i chan hp hi hchan hm ht | wakeEnd chan ret i hp hi hm ht
    | waitEnter x pc hp hcore hm ht | waitNext x hk hk' r hp hr hm ht | waitLeave x hk i hp hm ht
    | waitFull x hk i hp hi hm ht => exact absurd hm hsame
    | forkAlloc r hp hr hm ht =>
      by_cases hqr : q = r
      · rw [hm, hqr] at hq'
        exact absurd (by simpa [allocOne] using hq') (hlive .used (.inl rfl))
      · simp only [hm, allocOne, Mem.set_proc_of_ne _ _ hqr] at hq'
        exact absurd hq' hq
    | forkFail r hp hr hm ht =>
      by_cases hqr : q = r
      · rw [hm, hqr] at hq'
        have hunused : .unused = st := by simpa [allocFail, freeproc, allocOne] using hq'
        rw [hqr, hr] at hq
        exact absurd hunused hq
      · simp only [hm, allocFail, freeproc, allocOne, Mem.set_proc_of_ne _ _ hqr] at hq'
        exact absurd hq' hq
    | forkParent np hp hm ht | reparent status r hp hr hm ht => exact (hkeep _ _ hm rfl).elim
    | forkReady np hp hm ht => exact (hset _ _ hm (hlive _ (.inr (.inl rfl)))).elim
    | sleep x hp hm ht => exact (hset _ _ hm (hlive _ (.inr (.inr rfl)))).elim
    | exitLast status hp hm ht =>
      have hqp : q = p := by
        by_contra hne
        rw [hm, Mem.set_proc_of_ne _ _ hne] at hq'
        exact hq hq'
      subst hqp
      rw [hm, Mem.set_proc_self] at hq'
      rw [← hq']
      exact .exit status hr hp (by rw [ht, Function.update_self])
    | reap x hk r hp hpar hz hm ht =>
      have hqr : q = r := by
        by_contra hne
        rw [hm, freeproc, Mem.set_proc_of_ne _ _ hne] at hq'
        exact hq hq'
      subst hqr
      rw [hm, freeproc, Mem.set_proc_self] at hq'
      rw [← hq']
      exact .reap p x q.val hk hz hr hp hpar

end

/-! ## Histories -/

/-- What a history records when a slot is freed: how often it had been allocated and how often its
process had come to the end of `exit`, its state and parent before the step, the process that took
the step and where its thread stood. -/
structure Freed where
  slot : Slot
  life : ℕ
  exits : ℕ
  state : ProcState
  parent : Option Slot
  caller : Option Slot
  place : Option Thread

def Freed.ByParent (f : Freed) : Prop :=
  f.state = .zombie ∧ ∃ p x i havekids, f.caller = some p ∧ f.parent = some p ∧
    f.place = some (.at (.waitScan x i havekids))

structure History (H : Type) where
  now : State H
  lives : Slot → ℕ
  exits : Slot → ℕ
  freed : List Freed

section
variable {H : Type} {b : Build} {s s' : State H}

def State.unused (s : State H) (q : Slot) : Bool := (s.mem.proc q).state = .unused

def freedSlots (s s' : State H) : List Slot :=
  (List.finRange NPROC).filter fun q => !s.unused q && s'.unused q

def Thread.lastOfExit : Thread → Bool
  | .at (.exitLast _) => true
  | _ => false

/-- In the step from `s` to `s'` on `h`, the process in slot `q` gives up its CPU at the end of
`exit`. -/
def exiting (h : H) (s s' : State H) (q : Slot) : Bool :=
  s.run h = some q && (s.thread q).lastOfExit && (s'.thread q).exited

def History.next (g : History H) (h : H) (s' : State H) : History H where
  now := s'
  lives := fun q => if g.now.unused q && !s'.unused q then g.lives q + 1 else g.lives q
  exits := fun q => if exiting h g.now s' q then g.exits q + 1 else g.exits q
  freed := g.freed ++ (freedSlots g.now s').map fun q =>
    { slot := q
      life := g.lives q
      exits := g.exits q
      state := (g.now.mem.proc q).state
      parent := (g.now.mem.proc q).parent
      caller := g.now.run h
      place := (g.now.run h).map g.now.thread }

/-- The kernel with its history; `init` is the first life of its slot. -/
def histSys (b : Build) (H : Type) [DecidableEq H] : TransSys (History H) (Event H) where
  init := fun g => g = ⟨boot b H, fun q => if q = initproc then 1 else 0, fun _ => 0, []⟩
  step := fun g e g' => step b g.now e = .ok g'.now ∧ g' = g.next e.hart g'.now

/-- A record of the past is of an earlier life, or of the last one if the slot is free now. -/
structure HistInv (g : History H) : Prop where
  past : ∀ f ∈ g.freed, f.life < g.lives f.slot ∨
    f.life = g.lives f.slot ∧ g.now.unused f.slot = true
  nodup : (g.freed.map fun f => (f.slot, f.life)).Nodup

theorem mem_freedSlots {q : Slot} :
    q ∈ freedSlots s s' ↔ s.unused q = false ∧ s'.unused q = true := by
  simp [freedSlots]

/-- The records stay distinct if none of the old ones has the number of a new one for its slot. -/
theorem nodup_append_freed {l : List Freed} {key : Freed → ℕ} {record : Slot → Freed}
    (hrecord : ∀ q, (record q).slot = q) (hl : (l.map fun f => (f.slot, key f)).Nodup)
    (hnew : ∀ f ∈ l, f.slot ∈ freedSlots s s' → key f ≠ key (record f.slot)) :
    ((l ++ (freedSlots s s').map record).map fun f => (f.slot, key f)).Nodup := by
  rw [List.map_append, List.nodup_append, List.map_map]
  refine ⟨hl, ?_, ?_⟩
  · refine List.Nodup.map ?_ ((List.nodup_finRange NPROC).filter _)
    intro q q' heq
    have hslot : (record q).slot = (record q').slot := congrArg Prod.fst heq
    rwa [hrecord, hrecord] at hslot
  · intro x hx y hy heq
    obtain ⟨f, hf, rfl⟩ := List.mem_map.mp hx
    obtain ⟨q, hq, rfl⟩ := List.mem_map.mp hy
    obtain ⟨hslot, hkey⟩ := Prod.mk.inj heq
    obtain rfl := hslot.trans (hrecord q)
    exact hnew f hf hq hkey

variable {g : History H}

theorem HistInv.next (hg : HistInv g) (h : H) (s' : State H) : HistInv (g.next h s') := by
  constructor
  · intro f hf
    rcases List.mem_append.mp hf with hf | hf
    · -- an old record: its slot is allocated anew, or nothing has changed for it
      rcases hg.past f hf with hlt | ⟨heq, hu⟩
      · left
        simp only [History.next]
        split <;> omega
      · cases hu' : s'.unused f.slot with
        | true => exact .inr ⟨by simp [History.next, hu', heq], hu'⟩
        | false =>
          left
          simp only [History.next, hu, hu', Bool.not_false, Bool.and_self, if_true]
          omega
    · obtain ⟨q, hq, rfl⟩ := List.mem_map.mp hf
      obtain ⟨hu, hu'⟩ := mem_freedSlots.mp hq
      exact .inr ⟨by simp [History.next, hu], hu'⟩
  · refine nodup_append_freed (fun _ => rfl) hg.nodup ?_
    intro f hf hq
    obtain ⟨hu, -⟩ := mem_freedSlots.mp hq
    -- the slot was in use, so the old record is of an earlier life
    rcases hg.past f hf with hlt | ⟨-, hu'⟩
    · exact Nat.ne_of_lt hlt
    · rw [hu] at hu'
      cases hu'

variable [DecidableEq H]

theorem reachable_of_history (hg : (histSys b H).Reachable g) : (sys b H).Reachable g.now := by
  induction hg with
  | init h0 =>
    rw [show _ = _ from h0]
    exact .init rfl
  | step _ hstep ih => exact ih.step hstep.1

theorem histInv_of_reachable (hg : (histSys b H).Reachable g) : HistInv g := by
  induction hg with
  | init h0 =>
    rw [show _ = _ from h0]
    exact ⟨by simp, by simp⟩
  | step _ hstep ih =>
    rw [hstep.2]
    exact ih.next _ _

/-- A process is a zombie after it has exited, and what has been freed after that exit is not one
any more. -/
structure ExitInv (g : History H) : Prop where
  zombie : ∀ q, (g.now.mem.proc q).state = .zombie → 0 < g.exits q
  past : ∀ f ∈ g.freed, f.slot ≠ initproc ∧ f.ByParent ∧ 0 < f.exits ∧ f.exits ≤ g.exits f.slot ∧
    (f.exits = g.exits f.slot → (g.now.mem.proc f.slot).state ≠ .zombie)
  nodup : (g.freed.map fun f => (f.slot, f.exits)).Nodup

theorem ExitInv.next {h : H} (hg : ExitInv g)
    (hroot : (g.now.mem.proc initproc).state ≠ .zombie) (he : Effect h g.now s') :
    ExitInv (g.next h s') := by
  have hmono : ∀ q, g.exits q ≤ (g.next h s').exits q := by
    intro q
    simp only [History.next]
    split <;> omega
  have hnew : ∀ q, (g.now.mem.proc q).state ≠ .zombie → (s'.mem.proc q).state = .zombie →
      (g.next h s').exits q = g.exits q + 1 := by
    intro q hq hq'
    cases he.ends (.inl rfl) hq hq' with
    | exit status hr hp ht =>
      have hexit : exiting h g.now s' q = true := by
        simp [exiting, hr, hp, ht, Thread.lastOfExit, Thread.exited]
      simp only [History.next, hexit, if_true]
  have hfreed : ∀ q ∈ freedSlots g.now s', Ends h g.now s' q .unused := by
    intro q hq
    obtain ⟨hu, hu'⟩ := mem_freedSlots.mp hq
    exact he.ends (.inr rfl) (by simpa [State.unused] using hu) (by simpa [State.unused] using hu')
  refine ⟨?_, ?_, ?_⟩
  · intro q hq
    by_cases hold : (g.now.mem.proc q).state = .zombie
    · exact (hg.zombie q hold).trans_le (hmono q)
    · rw [hnew q hold hq]
      exact Nat.succ_pos _
  · intro f hf
    rcases List.mem_append.mp hf with hf | hf
    · obtain ⟨hslot, hby, hpos, hle, hdead⟩ := hg.past f hf
      refine ⟨hslot, hby, hpos, hle.trans (hmono _), ?_⟩
      intro heq hz
      have hsame : f.exits = g.exits f.slot := le_antisymm hle (by rw [heq]; exact hmono _)
      have hcount := hnew f.slot (hdead hsame) hz
      omega
    · obtain ⟨q, hq, rfl⟩ := List.mem_map.mp hf
      cases hfreed q hq with
      | reap p x i hk hz hr hp hpar =>
        refine ⟨?_, ⟨hz, p, x, i, hk, hr, hpar, ?_⟩, hg.zombie q hz, hmono q, ?_⟩
        · rintro rfl
          exact hroot hz
        · simp [hr, hp]
        · intro _ hz'
          have hu' : s'.unused q = true := (mem_freedSlots.mp hq).2
          have hz' : (s'.mem.proc q).state = .zombie := hz'
          simp [State.unused, hz'] at hu'
  · refine nodup_append_freed (fun _ => rfl) hg.nodup ?_
    intro f hf hq hexits
    -- the slot is freed as a zombie now, so the old record is of an earlier exit
    cases hfreed f.slot hq with
    | reap p x i hk hz hr hp hpar => exact (hg.past f hf).2.2.2.2 hexits hz

theorem exitInv_of_reachable (hb : b ≠ .mlfq) (hg : (histSys b H).Reachable g) : ExitInv g := by
  induction hg with
  | init h0 =>
    rw [show _ = _ from h0]
    refine ⟨?_, by simp, by simp⟩
    intro q hq
    have hq : ((boot b H).mem.proc q).state = .zombie := hq
    rw [boot_state] at hq
    split at hq <;> cases hq
  | @step g g' e hg hstep ih =>
    obtain ⟨hok, hnext⟩ := hstep
    obtain ⟨hI, hT, -⟩ := tree_of_run (fresh_of_reachable hb (reachable_of_history hg))
    rw [hnext]
    have hroot : (g.now.mem.proc initproc).state ≠ .zombie := by
      intro hz
      have hstage := hT.root
      rw [hz] at hstage
      cases hstage
    exact ih.next hroot ((step_effect hI e).of_ok hok)

/-- In every history under RR: while `wait_lock` is free, a process that sleeps on itself has no
zombie child; no life of a slot is freed twice; it is freed as a zombie, in `wait` or `waitx`, by
the process that is its parent at that time; and after a call of `exit` at most one call of `wait`
or `waitx` does so, and none before it. -/
theorem wait_loses_no_child {g : History H} (hg : (histSys .rr H).Reachable g) :
    (g.now.locks .wait = none → ∀ q c, (g.now.mem.proc q).state = .sleeping →
      (g.now.mem.proc q).chan = .proc q → (g.now.mem.proc c).parent = some q →
      (g.now.mem.proc c).state ≠ .zombie) ∧
    (g.freed.map fun f => (f.slot, f.life)).Nodup ∧
    (∀ f ∈ g.freed, f.slot ≠ initproc ∧ f.ByParent) ∧
    (g.freed.map fun f => (f.slot, f.exits)).Nodup ∧
    ∀ f ∈ g.freed, 0 < f.exits ∧ f.exits ≤ g.exits f.slot := by
  have hrun := fresh_of_reachable (by decide) (reachable_of_history hg)
  obtain ⟨hI, hT, -⟩ := tree_of_run hrun
  have hexit := exitInv_of_reachable (by decide) hg
  refine ⟨?_, (histInv_of_reachable hg).nodup, ?_, hexit.nodup, ?_⟩
  · intro hfree q c hs hchan hc
    exact (waitInv_of_run hrun).no_zombie_child hI hT hfree ⟨hs, hchan⟩ hc
  · intro f hf
    obtain ⟨hslot, hby, -⟩ := hexit.past f hf
    exact ⟨hslot, hby⟩
  · intro f hf
    obtain ⟨-, -, hpos, hle, -⟩ := hexit.past f hf
    exact ⟨hpos, hle⟩

theorem history_of_run {es : List (Event H)} {t : State H} (hg : (histSys b H).Reachable g)
    (hrun : (sys b H).Run g.now es t) : ∃ g', (histSys b H).Reachable g' ∧ g'.now = t := by
  generalize hs : g.now = s at hrun
  induction hrun generalizing g with
  | nil s => exact ⟨g, hg, hs⟩
  | @cons s s' t e es hstep _ ih =>
    rw [← hs] at hstep
    have hnext : (histSys b H).Reachable (g.next e.hart s') := hg.step ⟨hstep, rfl⟩
    exact ih hnext rfl

end

/-- The child that the first process has forked runs on hart 1 and exits; the first process calls
`wait` and has looked at its own slot. -/
def childExits : List (Event (Fin 2)) :=
  [Event.sched 0 0, .sched 0 0, .go 0 true, .call 0 .fork] ++
    List.replicate 4 (Event.go 0 true) ++ List.replicate 3 (Event.sched 1 0) ++
    [Event.go 1 true, .call 1 (.exit 0)] ++
    List.replicate (2 * (NPROC + 1) + 2) (Event.go 1 true) ++
    [Event.sched 1 0, .call 0 .wait, .go 0 true]

theorem wait_loses_no_child_childExits : ∃ g : History (Fin 2),
    (histSys .rr (Fin 2)).Reachable g ∧
    ∃ f ∈ g.freed, f.slot = secondSlot ∧ f.ByParent ∧ 0 < f.exits := by
  have hrun : ((TransSys.exec (stepOk .rr) (boot .rr (Fin 2)) childExits).bind fun s =>
      (stepOk .rr s (.go 0 true)).map fun s' => (s.unused secondSlot, s'.unused secondSlot)) =
      some (false, true) := by decide +kernel
  obtain ⟨s, hs, h⟩ := Option.bind_eq_some_iff.mp hrun
  obtain ⟨s', hs', h⟩ := Option.map_eq_some_iff.mp h
  obtain ⟨hu, hu'⟩ := Prod.mk.inj h
  obtain ⟨g, hg, rfl⟩ := history_of_run (.init rfl)
    (TransSys.Run.of_exec (fun _ _ _ h => Outcome.result_eq_some.mp h) hs)
  have hreach : (histSys .rr (Fin 2)).Reachable (g.next 0 s') :=
    hg.step ⟨Outcome.result_eq_some.mp hs', rfl⟩
  have hmem : ∀ f, f ∈ (freedSlots g.now s').map _ → f ∈ (g.next 0 s').freed :=
    fun f hf => List.mem_append_right _ hf
  have hf := hmem _ (List.mem_map_of_mem (mem_freedSlots.mpr ⟨hu, hu'⟩))
  obtain ⟨-, -, hby, -, hexits⟩ := wait_loses_no_child hreach
  exact ⟨_, hreach, _, hf, rfl, (hby _ hf).2, (hexits _ hf).1⟩

end Xv6.Sched
