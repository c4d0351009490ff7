import Xv6.Sched.Moves

/-! # What a step writes into the process table

`Write s e q y`: the step `e` from state `s` may leave `y` in `proc[q]`. The list is complete for
every build, with what is known about the writer; an invariant of the table entries is one case
analysis over it.
-/

namespace Xv6.Sched
set_option autoImplicit false

section
variable {H : Type} [DecidableEq H]

inductive Write (s : State H) (e : Event H) (q : Slot) : Proc → Prop
  | same : Write s e q (s.mem.proc q)
  /-- The queue functions and the timer path. -/
  | queue (wait pos used : ℕ) (inq : Bool) : Write s e q { s.mem.proc q with
      currWaitTime := wait, queuePosition := pos, ticksUsed := used, inQueue := inq }
  | niceness (n : ℤ) : Write s e q { s.mem.proc q with niceness := n }
  /-- Only PBS and MLFQ do not look at the state right before. -/
  | dispatch (h : H) (l : Loc) (ct : ℤ) (wait : ℕ) (hl : s.spc h = .loop l)
      (hrun : l.build ≠ .mlfq → l.build ≠ .pbs → (s.mem.proc q).state = .runnable) :
      Write s e q { s.mem.proc q with state := .running, schedCt := ct, currWaitTime := wait }
  /-- `yield`, `sleep` and `exit` of the process itself. -/
  | leave (h : H) (pc : Pc) (st : ProcState) (chan : Chan) (status : ℤ) (hr : s.run h = some q)
      (ht : s.thread q = .at pc) (hst : st ≠ .unused) :
      Write s e q { s.mem.proc q with state := st, chan := chan, xstate := status }
  | resumed (h : H) (hr : s.run h = some q) : Write s e q { s.mem.proc q with chan := .null }
  | wake (hs : (s.mem.proc q).state = .sleeping) :
      Write s e q { s.mem.proc q with state := .runnable }
  | kill (h : H) (ok : Bool) (p : Slot) (pid : ℕ) (he : e = .go h ok) (hr : s.run h = some p)
      (ht : s.thread p = .at (.kill pid q.val)) (hp : (s.mem.proc q).pid = pid) :
      Write s e q ((killOne pid q s.mem).proc q)
  | setkilled (h : H) (hr : s.run h = some q) (ht : s.thread q = .at .user) :
      Write s e q { s.mem.proc q with killed := true }
  | alloc (h : H) (p : Slot) (hr : s.run h = some p) (ht : s.thread p = .at (.forkAlloc q.val))
      (hq : (s.mem.proc q).state = .unused) : Write s e q ((allocOne p q s.mem).proc q)
  | allocFail (p : Slot) (hq : (s.mem.proc q).state = .unused) :
      Write s e q ((allocFail p q s.mem).proc q)
  | parent (o : Option Slot) : Write s e q { s.mem.proc q with parent := o }
  | ready (h : H) (p : Slot) (hr : s.run h = some p) (ht : s.thread p = .at (.forkReady q)) :
      Write s e q { s.mem.proc q with state := .runnable }
  | reap (hz : (s.mem.proc q).state = .zombie) : Write s e q ((freeproc q s.mem).proc q)
  | time : Write s e q ((updateTime q s.mem).proc q)
  | tickets (n : ℤ) (hn : 1 ≤ int n) : Write s e q { s.mem.proc q with tickets := int n }
  | priority (n : ℤ) : Write s e q { s.mem.proc q with
      niceness := 5, rtime := 0, stime := 0, staticPriority := n }

/-- Every entry of `m` is one that the step may leave. -/
def Writes (s : State H) (e : Event H) (m : Mem) : Prop := ∀ q, Write s e q (m.proc q)

variable {b : Build} {s s' : State H} {e : Event H} {h : H} {p q : Slot} {m : Mem} {r : Slot}

omit [DecidableEq H] in
theorem Writes.refl (s : State H) : Writes s e s.mem := fun _ => .same

omit [DecidableEq H] in
theorem Writes.set (hm : ∀ r, r ≠ q → m.proc r = s.mem.proc r) (hq : Write s e q (m.proc q)) :
    Writes s e m := by
  intro r
  by_cases hr : r = q
  · subst hr
    exact hq
  · rw [hm r hr]
    exact .same

omit [DecidableEq H] in
theorem Writes.update {f : Proc → Proc} (hq : Write s e q (f (s.mem.proc q))) :
    Writes s e (s.mem.set q f) := by
  refine .set (q := q) ?_ ?_
  · intro r hr
    exact Mem.set_proc_of_ne _ _ hr
  · rw [Mem.set_proc_self]
    exact hq

/-! ## The queue functions -/

omit [DecidableEq H] in
theorem pushQueue_writes {n k : ℕ} {m' : Mem} (hm : ∀ r, r ≠ p → m.proc r = s.mem.proc r)
    (hp : m.proc p = { s.mem.proc p with ticksUsed := k }) (hpush : pushQueue p n m = .ok m') :
    Writes s e m' := by
  rw [pushQueue] at hpush
  split at hpush
  · cases hpush
    refine .set (q := p) ?_ ?_
    · intro r hr
      simp [Mem.set, hr, hm r hr]
    · have hq := Write.queue (s := s) (e := e) (q := p) 0 n 0 true
      simpa [Mem.set, hp] using hq
  · cases hpush

omit [DecidableEq H] in
theorem ageOne_writes (hm : ageOne p s.mem = .ok m) : Writes s e m := by
  rw [ageOne] at hm
  split at hm
  · refine pushQueue_writes (k := (s.mem.proc p).ticksUsed) ?_ ?_ hm
    · intro r _
      rw [removeQueue_proc]
    · rw [removeQueue_proc]
  · cases hm
    exact .refl s

omit [DecidableEq H] in
theorem fillOne_writes (hm : fillOne p s.mem = .ok m) : Writes s e m := by
  rw [fillOne] at hm
  split at hm
  · exact pushQueue_writes (fun _ _ => rfl) rfl hm
  · cases hm
    exact .refl s

omit [DecidableEq H] in
theorem popQueue_writes {n : ℕ} (hm : popQueue n s.mem = .ok (p, m)) : Writes s e m := by
  rw [popQueue] at hm
  split at hm
  · cases hm
  · cases hm
    refine .set (q := p) ?_ ?_
    · intro r hr
      simp [Mem.set, hr]
    · have hq := Write.queue (s := s) (e := e) (q := p) (s.mem.proc p).currWaitTime
        (s.mem.proc p).queuePosition (s.mem.proc p).ticksUsed false
      simpa [Mem.set] using hq

/-! ## The moves -/

omit [DecidableEq H] in
theorem dispatch_writes {l : Loc} {ct : ℤ} {wait : ℕ} (hl : s.spc h = .loop l)
    (hrun : l.build ≠ .mlfq → l.build ≠ .pbs → (s.mem.proc p).state = .runnable) :
    Writes s e ((s.mem.set p fun x => { x with schedCt := ct, currWaitTime := wait }).setState p
      .running) := by
  refine .set (q := p) ?_ ?_
  · intro r hr
    simp [Mem.setState, hr]
  · have hd := Write.dispatch (e := e) (q := p) h l ct wait hl hrun
    simpa [Mem.setState] using hd

omit [DecidableEq H] in
theorem SchedMem.writes (hm : SchedMem s h m) : Writes s e m := by
  cases hm with
  | same => exact .refl s
  | dispatch p hl hp =>
    refine Writes.update ?_
    exact .dispatch h _ _ _ hl fun _ _ => hp
  | niceness p n => exact .update (.niceness n)
  | pbs p hl => exact dispatch_writes hl fun _ hb => absurd rfl hb
  | age p hl hm => exact ageOne_writes hm
  | fill p hm => exact fillOne_writes hm
  | pop q p hm => exact popQueue_writes hm
  | popped p hl => exact dispatch_writes hl fun hb => absurd rfl hb

omit [DecidableEq H] in
theorem wakeOne_writes (chan : Chan) (q : Slot) : Writes s e (wakeOne chan q s.mem) := by
  rw [wakeOne]
  split
  · next hs => exact .update (.wake hs.1)
  · exact .refl s

omit [DecidableEq H] in
theorem killOne_writes {ok : Bool} {pid : ℕ} (he : e = .go h ok) (hr : s.run h = some p)
    (ht : s.thread p = .at (.kill pid q.val)) : Writes s e (killOne pid q s.mem) := by
  refine .set (q := q) ?_ ?_
  · intro r hr'
    rw [killOne]
    split
    · exact Mem.set_proc_of_ne _ _ hr'
    · rfl
  · by_cases hpid : (s.mem.proc q).pid = pid
    · exact .kill h ok p pid he hr ht hpid
    · rw [killOne, if_neg hpid]
      exact .same

theorem allocOne_of_ne (hr : r ≠ q) : (allocOne p q m).proc r = m.proc r := by
  simp [allocOne, hr]

theorem freeproc_of_ne (hr : r ≠ q) : (freeproc q m).proc r = m.proc r :=
  Mem.set_proc_of_ne m _ hr

theorem updateTime_of_ne (hr : r ≠ q) : (updateTime q m).proc r = m.proc r :=
  Mem.set_proc_of_ne m _ hr

omit [DecidableEq H] in
theorem sysSettickets_writes (p : Slot) (n : ℤ) : Writes s e (sysSettickets p (int n) s.mem) := by
  have hall : ∀ q, (sysSettickets p (int n) s.mem).proc q = s.mem.proc q ∨
      1 ≤ int n ∧ (sysSettickets p (int n) s.mem).proc q =
        { s.mem.proc q with tickets := int n } := by
    refine sysSettickets_induction (P := fun m => ∀ q, m.proc q = s.mem.proc q ∨
      1 ≤ int n ∧ m.proc q = { s.mem.proc q with tickets := int n }) (fun q => .inl rfl) ?_
    intro m q hn hm r
    by_cases hr : r = q
    · subst hr
      right
      rcases hm r with hold | ⟨-, hold⟩ <;> simp [hold, hn]
    · rw [Mem.set_proc_of_ne _ _ hr]
      exact hm r
  intro q
  rcases hall q with hq | ⟨hn, hq⟩
  · rw [hq]
    exact .same
  · rw [hq]
    exact .tickets n hn

omit [DecidableEq H] in
theorem ThreadMem.writes {t t' : Thread} (hm : ThreadMem b e s h p t m t') (hr : s.run h = some p)
    (ht : s.thread p = t) : Writes s e m := by
  cases hm with
  | goes | yielded | forkret | wakeSelf | wakeEnd | exit | reparentSkip | reparentEnd | waitEnter
  | waitNext | waitLeave | waitFull | tickNext => exact .refl s
  | yield | tickYield =>
    refine Writes.update ?_
    exact .leave h _ .runnable _ _ hr ht (by simp)
  | sleep | waitSleep => exact .update (.leave h _ .sleeping _ _ hr ht (by simp))
  | slept => exact .update (.resumed h hr)
  | wake q => exact wakeOne_writes _ q
  | kill q he hpc => exact killOne_writes he hr ht
  | setkilled => exact .update (.setkilled h hr ht)
  | forkFail q he hq =>
    refine .set ?_ (.allocFail p hq)
    intro r hr'
    exact (freeproc_of_ne hr').trans (allocOne_of_ne hr')
  | forkParent | reparent => exact .update (.parent _)
  | forkReady np =>
    refine Writes.update ?_
    exact .ready h p hr ht
  | exitLast => exact .update (.leave h _ .zombie _ _ hr ht (by simp))
  | reap q hq hz => exact .set (fun _ => freeproc_of_ne) (.reap hz)
  | tick => exact .update (.queue _ _ _ _)
  | tickPush hm =>
    refine pushQueue_writes ?_ (Mem.set_proc_self _ _ _) hm
    intro r hr'
    exact Mem.set_proc_of_ne _ _ hr'
  | settickets => exact sysSettickets_writes p _
  | setPriority q => exact .update (.priority _)

omit [DecidableEq H] in
theorem HandlerMem.writes (hm : HandlerMem s.mem m) : Writes s e m := by
  cases hm with
  | same | ticks => exact .refl s
  | wake chan q => exact wakeOne_writes chan q
  | time q => exact .set (fun _ => updateTime_of_ne) .time

theorem step_writes (hs : step b s e = .ok s') : Writes s e s'.mem := by
  cases (step_moves e).of_ok hs with
  | sched h r he hr hm ht hrun | handler hm ht hrun hspc => exact hm.writes
  | enter h r p l he hr hl hm ht hrun hspc | leave h p ret he hr hp hm ht hrun hspc =>
    rw [hm]
    exact .refl s
  | thread h p t he hr hm ht hrun hspc => exact hm.writes hr rfl
  | fork h ok p q he hr hp hq hm ht hrun hspc =>
    rw [hm]
    exact .set (fun _ => allocOne_of_ne) (.alloc h p hr hp hq)

end
end Xv6.Sched
