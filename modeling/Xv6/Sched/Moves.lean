import Xv6.Sched.Step

/-! # The list of all moves

`Move b e s s'` lists what the step `e` of the build `b` may do to the shared data, to the threads
and to who runs where; the locks and `struct cpu` are left out. The functions of the kernel are
walked through once, in `step_moves`. What a step writes, what it does to the process tree and what
it does to the MLFQ queues are case analyses over this list.
-/

namespace Xv6.Sched
set_option autoImplicit false
open Function (update)
open Outcome (ensures_bind ensures_guard)

/-- A thread goes from one place to another one outside `exit`, `wait` and the timer path. -/
inductive Pc.Goes : Pc → Pc → Prop
  | lock (lk : ℕ) : Goes .user (.locked lk)
  | unlock (lk : ℕ) : Goes (.locked lk) .user
  | relock (lk : ℕ) : Goes (.relockOther lk) (.locked lk)
  | wakeup (chan : Chan) : Goes .user (.wakeup chan 0 .user)
  | wakeupLocked (chan : Chan) (lk : ℕ) : Goes (.locked lk) (.wakeup chan 0 (.locked lk))
  | kill (pid : ℕ) : Goes .user (.kill pid 0)
  | killNext (pid i : ℕ) : Goes (.kill pid i) (.kill pid (i + 1))
  | killEnd (pid i : ℕ) : Goes (.kill pid i) .user
  | fork : Goes .user (.forkAlloc 0)
  | forkNext (i : ℕ) : Goes (.forkAlloc i) (.forkAlloc (i + 1))
  | forkEnd (i : ℕ) : Goes (.forkAlloc i) .user

/-- Where `exit` finds the sleeping parent of `p`. -/
def parentChan (m : Mem) (p : Slot) : Chan :=
  match (m.proc p).parent with
  | none => .null
  | some q => .proc q

/-- The next place of the timer path of `p`. -/
def tickNext (m : Mem) (p : Slot) (i : ℕ) (ret : Pc) : Pc :=
  if i < (m.proc p).queuePosition then
    if m.queue.size i ≠ 0 then .tickPush false (.tick (i + 1) ret) else .tick (i + 1) ret
  else if (m.proc p).ticksUsed ≥ maxTicks (m.proc p).queuePosition then .tickPush true ret
  else ret

/-- The handlers of interrupts, which may run while the scheduler holds no lock. -/
def Event.interrupt {H : Type} : Event H → Bool
  | intrWakeup _ _ _ | intrTicks _ | intrTime _ _ | setIntr _ _ => true
  | sched _ _ | call _ _ | go _ _ => false

section
variable {H : Type} [DecidableEq H]

inductive SchedMem (s : State H) (h : H) : Mem → Prop
  | same : SchedMem s h s.mem
  | dispatch {l : Loc} (p : Slot) (hl : s.spc h = .loop l)
      (hp : (s.mem.proc p).state = .runnable) : SchedMem s h (s.mem.setState p .running)
  | niceness (p : Slot) (n : ℤ) : SchedMem s h (s.mem.set p fun x => { x with niceness := n })
  | pbs {i : ℕ} {prio : UInt64} (p : Slot) (hl : s.spc h = .loop (.pbs i (some p) prio)) :
      SchedMem s h
        ((s.mem.set p fun x => { x with schedCt := x.schedCt + 1 }).setState p .running)
  | age {m : Mem} (p : Slot) (hl : s.spc h = .loop (.age p.val)) (hm : ageOne p s.mem = .ok m) :
      SchedMem s h m
  | fill {m : Mem} (p : Slot) (hm : fillOne p s.mem = .ok m) : SchedMem s h m
  | pop {m : Mem} (q : ℕ) (p : Slot) (hm : popQueue q s.mem = .ok (p, m)) : SchedMem s h m
  | popped (p : Slot) (hl : s.spc h = .loop (.popped p)) : SchedMem s h
      ((s.mem.set p fun x => { x with schedCt := x.schedCt + 1, currWaitTime := 0 }).setState p
        .running)

/-- What the thread of `p`, which `h` runs, does to the shared data, and from where to where. -/
inductive ThreadMem (b : Build) (e : Event H) (s : State H) (h : H) (p : Slot) :
    Thread → Mem → Thread → Prop
  | goes {pc pc' : Pc} (hpc : pc.Goes pc') : ThreadMem b e s h p (.at pc) s.mem (.at pc')
  | yield {pc : Pc} (hpc : mayYield b pc = true) :
      ThreadMem b e s h p (.at pc) (s.mem.setState p .runnable) (.sched (.yield pc))
  | tickYield {ret : Pc} : ThreadMem b e s h p (.at (.tickYield ret))
      (s.mem.setState p .runnable) (.sched (.yield ret))
  | sleep {obj lk : ℕ} : ThreadMem b e s h p (.at (.locked lk))
      (s.mem.set p fun x => { x with chan := .obj obj, state := .sleeping })
      (.sched (.sleep (.relockOther lk)))
  | waitSleep {x : Bool} : ThreadMem b e s h p (.at (.waitSleep x))
      (s.mem.set p fun y => { y with chan := .proc p, state := .sleeping })
      (.sched (.sleep (.relockWait x)))
  | yielded {pc : Pc} : ThreadMem b e s h p (.resume (.yield pc)) s.mem (.at pc)
  | slept {pc : Pc} : ThreadMem b e s h p (.resume (.sleep pc))
      (s.mem.set p fun x => { x with chan := .null }) (.at pc)
  | forkret : ThreadMem b e s h p (.resume .forkret) s.mem (.at .user)
  | wake {chan : Chan} {ret : WakeRet} (q : Slot) :
      ThreadMem b e s h p (.at (.wakeup chan q.val ret)) (wakeOne chan q s.mem)
        (.at (.wakeup chan (q.val + 1) ret))
  | wakeSelf {chan : Chan} {ret : WakeRet} (q : Slot) (hq : (s.cpu h).proc = some q) :
      ThreadMem b e s h p (.at (.wakeup chan q.val ret)) s.mem (.at (.wakeup chan (q.val + 1) ret))
  | wakeEnd {chan : Chan} {ret : WakeRet} {i : ℕ} (hi : NPROC ≤ i) :
      ThreadMem b e s h p (.at (.wakeup chan i ret)) s.mem (.at ret.pc)
  | kill {pid : ℕ} {pc : Pc} {ok : Bool} (q : Slot) (he : e = .go h ok)
      (hpc : (Pc.kill pid q.val).Goes pc) :
      ThreadMem b e s h p (.at (.kill pid q.val)) (killOne pid q s.mem) (.at pc)
  | setkilled : ThreadMem b e s h p (.at .user)
      (s.mem.set p fun x => { x with killed := true }) (.at .user)
  | forkFail {ok : Bool} (q : Slot) (he : e = .go h ok) (hq : (s.mem.proc q).state = .unused) :
      ThreadMem b e s h p (.at (.forkAlloc q.val)) (allocFail p q s.mem) (.at .user)
  | forkParent (np : Slot) : ThreadMem b e s h p (.at (.forkParent np))
      (s.mem.set np fun x => { x with parent := some p }) (.at (.forkReady np))
  | forkReady (np : Slot) : ThreadMem b e s h p (.at (.forkReady np))
      (s.mem.setState np .runnable) (.at .user)
  | exit {status : ℤ} (hinit : p ≠ initproc) :
      ThreadMem b e s h p (.at .user) s.mem (.at (.exitReparent status 0))
  | reparent {status : ℤ} (q : Slot) (hq : (s.mem.proc q).parent = some p) :
      ThreadMem b e s h p (.at (.exitReparent status q.val))
        (s.mem.set q fun x => { x with parent := some initproc })
        (.at (.wakeup (.proc initproc) 0 (.reparent status (q.val + 1))))
  | reparentSkip {status : ℤ} (q : Slot) (hq : (s.mem.proc q).parent ≠ some p) :
      ThreadMem b e s h p (.at (.exitReparent status q.val)) s.mem
        (.at (.exitReparent status (q.val + 1)))
  | reparentEnd {status : ℤ} {i : ℕ} (hi : NPROC ≤ i) :
      ThreadMem b e s h p (.at (.exitReparent status i)) s.mem
        (.at (.wakeup (parentChan s.mem p) 0 (.exit status)))
  | exitLast {status : ℤ} : ThreadMem b e s h p (.at (.exitLast status))
      (s.mem.set p fun x => { x with xstate := status, state := .zombie }) (.sched .exit)
  | waitEnter {x : Bool} {pc : Pc} (hpc : pc = .user ∨ pc = .relockWait x) :
      ThreadMem b e s h p (.at pc) s.mem (.at (.waitScan x 0 false))
  | waitNext {x havekids havekids' : Bool} (q : Slot)
      (hq : (s.mem.proc q).parent = some p → (s.mem.proc q).state ≠ .zombie) :
      ThreadMem b e s h p (.at (.waitScan x q.val havekids)) s.mem
        (.at (.waitScan x (q.val + 1) havekids'))
  | reap {x havekids : Bool} (q : Slot) (hq : (s.mem.proc q).parent = some p)
      (hz : (s.mem.proc q).state = .zombie) :
      ThreadMem b e s h p (.at (.waitScan x q.val havekids)) (freeproc q s.mem) (.at .user)
  | waitLeave {x havekids : Bool} {i : ℕ} :
      ThreadMem b e s h p (.at (.waitScan x i havekids)) s.mem (.at .user)
  | waitFull {x havekids : Bool} {i : ℕ} (hi : NPROC ≤ i) :
      ThreadMem b e s h p (.at (.waitScan x i havekids)) s.mem (.at (.waitSleep x))
  | tick {pc : Pc} (he : e = .call h .tick) (hpc : pc.interruptible = true) :
      ThreadMem b e s h p (.at pc)
        (s.mem.set p fun x => { x with ticksUsed := x.ticksUsed + 1 }) (.at (.tick 0 pc))
  | tickNext {i : ℕ} {ret : Pc} :
      ThreadMem b e s h p (.at (.tick i ret)) s.mem (.at (tickNext s.mem p i ret))
  | tickPush {demote : Bool} {ret : Pc} {m : Mem}
      (hm : pushQueue p (if demote then demoted (s.mem.proc p).queuePosition ret
        else (s.mem.proc p).queuePosition) (s.mem.set p fun x => { x with ticksUsed := 0 }) =
          .ok m) : ThreadMem b e s h p (.at (.tickPush demote ret)) m (.at (.tickYield ret))
  | settickets {n : ℤ} :
      ThreadMem b e s h p (.at .user) (sysSettickets p (int n) s.mem) (.at .user)
  | setPriority {priority : ℤ} (q : Slot) :
      ThreadMem b e s h p (.at .user) (changePriority priority q s.mem) (.at .user)

inductive HandlerMem (m : Mem) : Mem → Prop
  | same : HandlerMem m m
  | wake (chan : Chan) (q : Slot) : HandlerMem m (wakeOne chan q m)
  | ticks : HandlerMem m m.tick
  | time (q : Slot) : HandlerMem m (updateTime q m)

inductive Move (b : Build) (e : Event H) (s s' : State H) : Prop
  | sched (h : H) (r : UInt32) (he : e = .sched h r) (hr : s.run h = none)
      (hm : SchedMem s h s'.mem) (ht : s'.thread = s.thread) (hrun : s'.run = s.run)
  | enter (h : H) (r : UInt32) (p : Slot) (l : Loc) (he : e = .sched h r) (hr : s.run h = none)
      (hl : s.spc h = .swtch p l) (hm : s'.mem = s.mem) (ht : s'.thread = s.thread)
      (hrun : s'.run = update s.run h (some p)) (hspc : s'.spc = update s.spc h (.ret p l))
  | leave (h : H) (p : Slot) (ret : Ret) (he : e.hart = h) (hr : s.run h = some p)
      (hp : s.thread p = .sched ret) (hm : s'.mem = s.mem)
      (ht : s'.thread = update s.thread p (.resume ret)) (hrun : s'.run = update s.run h none)
      (hspc : s'.spc = s.spc)
  | thread (h : H) (p : Slot) (t : Thread) (he : e.hart = h) (hr : s.run h = some p)
      (hm : ThreadMem b e s h p (s.thread p) s'.mem t) (ht : s'.thread = update s.thread p t)
      (hrun : s'.run = s.run) (hspc : s'.spc = s.spc)
  | fork (h : H) (ok : Bool) (p q : Slot) (he : e = .go h ok) (hr : s.run h = some p)
      (hp : s.thread p = .at (.forkAlloc q.val)) (hq : (s.mem.proc q).state = .unused)
      (hm : s'.mem = allocOne p q s.mem)
      (ht : s'.thread = update (update s.thread q (.resume .forkret)) p (.at (.forkParent q)))
      (hrun : s'.run = s.run) (hspc : s'.spc = s.spc)
  | handler (hm : HandlerMem s.mem s'.mem) (ht : s'.thread = s.thread) (hrun : s'.run = s.run)
      (hspc : s'.spc = s.spc)

variable {b : Build} {e : Event H} {s : State H} {h : H} {p : Slot} {i : ℕ} {ok : Bool}

/-! ## The scheduler thread -/

structure Loops (s : State H) (h : H) (s' : State H) : Prop where
  mem : SchedMem s h s'.mem
  thread : s'.thread = s.thread
  run : s'.run = s.run

theorem Loops.same (l : SchedPc) {L : LockId → Option H} {C : H → Cpu} :
    Loops s h (State.goSched { s with locks := L, cpu := C } h l) :=
  ⟨.same, rfl, rfl⟩

theorem Loops.again (l : Loc) : Loops s h (again h l s) :=
  ⟨.same, rfl, rfl⟩

theorem tryProc_loops {ready : Mem → Bool} {l0 l : Loc} (hl : s.spc h = .loop l0)
    (hready : ready s.mem = true → (s.mem.proc p).state = .runnable) :
    (tryProc h p ready l s).Ensures (fun _ => True) (Loops s h) := by
  refine ensures_bind (acquire_frame ?_)
  intro L C
  split
  · next hr => exact ⟨.dispatch p hl (hready hr), rfl, rfl⟩
  · refine ensures_bind (release_frame ?_)
    intro L C
    exact .same _

theorem pbsLook_loops {minproc : Option Slot} {prio : UInt64} :
    (pbsLook h i p minproc prio s).Ensures (fun _ => True) (Loops s h) := by
  have hnice := SchedMem.niceness (s := s) (h := h) p (niceness (s.mem.proc p)).toNat
  refine ensures_bind (acquire_frame ?_)
  intro L C
  split
  · refine ensures_bind (release_frame ?_)
    intro L C
    exact .same _
  · cases minproc with
    | none => exact ⟨hnice, rfl, rfl⟩
    | some m =>
      dsimp only
      split
      · refine ensures_bind (release_frame ?_)
        intro L C
        exact ⟨hnice, rfl, rfl⟩
      · refine ensures_bind (release_frame ?_)
        intro L C
        exact ⟨hnice, rfl, rfl⟩

theorem mlfqScan_loops {body : Slot → Mem → Outcome Failure Mem} {l : Loc}
    (hbody : ∀ m, body p s.mem = .ok m → SchedMem s h m) :
    (mlfqScan body h p l s).Ensures (fun _ => True) (Loops s h) := by
  refine ensures_bind (acquire_frame ?_)
  intro L C
  refine ensures_bind ?_
  cases hm : body p s.mem with
  | blocked => trivial
  | fail e => trivial
  | ok m =>
    refine ensures_bind (release_frame ?_)
    intro L C
    exact ⟨hbody m hm, rfl, rfl⟩

theorem popCallStep_loops {q : ℕ} : (popCallStep h q s).Ensures (fun _ => True) (Loops s h) := by
  refine ensures_bind ?_
  cases hpop : popQueue q s.mem with
  | blocked => trivial
  | fail e => trivial
  | ok pm => exact ⟨.pop q pm.1 hpop, rfl, rfl⟩

theorem locStep_loops (r : UInt32) {l : Loc} (hl : s.spc h = .loop l) :
    (locStep h r s l).Ensures (fun _ => True) (Loops s h) := by
  cases l with
  | rr i =>
    simp only [locStep, rrStep]
    split
    · exact tryProc_loops hl (by simp [isRunnable])
    · exact .again _
  | fcfs i p flag t =>
    simp only [locStep, fcfsStep]
    split
    · exact .same _
    · exact .again _
  | fcfsTry i p flag t => exact tryProc_loops hl (by simp [isRunnable])
  | pbs i m prio =>
    simp only [locStep, pbsStep]
    split
    · exact pbsLook_loops
    · cases m with
      | none => exact .again _
      | some m => exact ⟨.pbs m hl, rfl, rfl⟩
  | lbs i =>
    simp only [locStep, lbsStep]
    split
    · refine tryProc_loops hl ?_
      intro hready
      simp only [isRunnable, Bool.and_eq_true, decide_eq_true_eq] at hready
      exact hready.1
    · exact .again _
  | age i =>
    simp only [locStep, ageStep]
    split
    · next hi => exact mlfqScan_loops fun m hm => .age ⟨i, hi⟩ hl hm
    · exact .same _
  | fill i =>
    simp only [locStep, fillStep]
    split
    · exact mlfqScan_loops fun m hm => .fill _ hm
    · exact .same _
  | pop q =>
    simp only [locStep, popStep]
    split
    · split
      · exact .same _
      · exact .same _
    · exact .again _
  | popCall q => exact popCallStep_loops
  | popped q =>
    refine ensures_bind (acquire_frame ?_)
    intro L C
    exact ⟨.popped q hl, rfl, rfl⟩

theorem schedStep_moves (hr : s.run h = none) (r : UInt32) :
    (schedStep h r s).Ensures (fun _ => True) (Move b (.sched h r) s) := by
  have hloops : ∀ s', Loops s h s' → Move b (.sched h r) s s' :=
    fun s' hs => .sched h r rfl hr hs.mem hs.thread hs.run
  unfold schedStep
  cases hl : s.spc h with
  | loop l => exact (locStep_loops r hl).mono hloops
  | swtch q l => exact .enter h r q l rfl hr hl rfl rfl rfl rfl
  | ret q l =>
    refine ensures_bind (release_frame ?_)
    intro L C
    exact hloops _ (.same _)

/-! ## The threads of the processes -/

/-- Event `e` is a step of the thread of `p`, which is at `t` and runs on `h`. -/
structure Acts (e : Event H) (s : State H) (h : H) (p : Slot) (t : Thread) : Prop where
  hart : e.hart = h
  run : s.run h = some p
  thread : s.thread p = t

section
variable {t t' : Thread} {l : LockId}

theorem Acts.move (ha : Acts e s h p t) {m : Mem} (hm : ThreadMem b e s h p t m t')
    {L : LockId → Option H} {C : H → Cpu} :
    Move b e s { s.goThread p t' with mem := m, locks := L, cpu := C } := by
  obtain rfl := ha.thread
  exact .thread h p t' ha.hart ha.run hm rfl rfl rfl

variable {f : Mem → Mem}

theorem Acts.stays (ha : Acts e s h p t) (hm : ThreadMem b e s h p t (f s.mem) t) :
    Move b e s (s.setMem f) := by
  obtain rfl := ha.thread
  exact .thread h p _ ha.hart ha.run hm (Function.update_eq_self p s.thread).symm rfl rfl

theorem Acts.critical (ha : Acts e s h p t) (hm : ThreadMem b e s h p t (f s.mem) t') :
    (critical h l f s >>= fun s => pure (s.goThread p t')).Ensures (fun _ => True)
      (Move b e s) := by
  refine ensures_bind (critical_frame ?_)
  intro L C
  exact ha.move hm

theorem Acts.acquire (ha : Acts e s h p t) (hm : ThreadMem b e s h p t (f s.mem) t') :
    (acquire h l s >>= fun s => pure ((s.setMem f).goThread p t')).Ensures (fun _ => True)
      (Move b e s) := by
  refine ensures_bind (acquire_frame ?_)
  intro L C
  exact ha.move hm

theorem Acts.release (ha : Acts e s h p t) {m : Mem} {C : H → Cpu} {L : LockId → Option H}
    (hm : ThreadMem b e s h p t m t') :
    (release h l { s with mem := m, locks := L, cpu := C } >>= fun s =>
      pure (s.goThread p t')).Ensures (fun _ => True) (Move b e s) := by
  refine ensures_bind (release_frame ?_)
  intro L C
  exact ha.move hm

end

theorem sleepStep_moves {t : Thread} (ha : Acts e s h p t) {chan : Chan} {lk : LockId} {pc : Pc}
    (hm : ThreadMem b e s h p t (s.mem.set p fun x => { x with chan := chan, state := .sleeping })
      (.sched (.sleep pc))) :
    (sleepStep h p chan lk pc s).Ensures (fun _ => True) (Move b e s) := by
  refine ensures_bind (acquire_frame ?_)
  intro L C
  refine ensures_bind (release_frame ?_)
  intro L C
  exact ha.move hm

theorem schedCall_moves {ret : Ret} (ha : Acts e s h p (.sched ret)) :
    (schedCall h p ret s).Ensures (fun _ => True) (Move b e s) := by
  rw [schedCall]
  split
  · trivial
  · repeat' split
    all_goals first | trivial | exact .leave h p ret ha.hart ha.run ha.thread rfl rfl rfl rfl

theorem resumeStep_moves {ret : Ret} (ha : Acts e s h p (.resume ret)) :
    (resumeStep h p s ret).Ensures (fun _ => True) (Move b e s) := by
  cases ret with
  | yield pc => exact ha.release .yielded
  | sleep pc => exact ha.release .slept
  | forkret => exact ha.release .forkret
  | exit => trivial

theorem wakeupStep_moves {chan : Chan} {ret : WakeRet}
    (ha : Acts e s h p (.at (.wakeup chan i ret))) :
    (wakeupStep h p chan i ret s).Ensures (fun _ => True) (Move b e s) := by
  rw [wakeupStep]
  split
  · next hi =>
    dsimp only
    split
    · exact ha.critical (.wake ⟨i, hi⟩)
    · next hself => exact ha.move (.wakeSelf ⟨i, hi⟩ (not_not.mp hself))
  · next hi => exact ha.move (.wakeEnd (Nat.le_of_not_lt hi))

theorem killStep_moves {pid : ℕ} (ha : Acts (.go h ok) s h p (.at (.kill pid i))) :
    (killStep h p pid i s).Ensures (fun _ => True) (Move b (.go h ok) s) := by
  rw [killStep]
  split
  · next hi =>
    refine ha.critical (.kill ⟨i, hi⟩ rfl ?_)
    split
    · exact .killEnd pid i
    · exact .killNext pid i
  · exact ha.move (.goes (.killEnd pid i))

theorem forkAllocStep_moves (ha : Acts (.go h ok) s h p (.at (.forkAlloc i))) :
    (forkAllocStep h p i ok s).Ensures (fun _ => True) (Move b (.go h ok) s) := by
  rw [forkAllocStep]
  split
  · next hi =>
    dsimp only
    split
    · next hq =>
      split
      · refine ensures_bind (critical_frame ?_)
        intro L C
        exact .fork h _ p ⟨i, hi⟩ rfl ha.run ha.thread hq rfl rfl rfl rfl
      · exact ha.critical (.forkFail ⟨i, hi⟩ rfl hq)
    · exact ha.critical (.goes (.forkNext i))
  · exact ha.move (.goes (.forkEnd i))

theorem exitReparentStep_moves {status : ℤ} (ha : Acts e s h p (.at (.exitReparent status i))) :
    (exitReparentStep p status i s).Ensures (fun _ => True) (Move b e s) := by
  rw [exitReparentStep]
  split
  · next hi =>
    dsimp only
    split
    · next hq => exact ha.move (.reparent ⟨i, hi⟩ hq)
    · next hq => exact ha.move (.reparentSkip ⟨i, hi⟩ hq)
  · next hi => exact ha.move (.reparentEnd (Nat.le_of_not_lt hi))

theorem exitLastStep_moves {status : ℤ} (ha : Acts e s h p (.at (.exitLast status))) :
    (exitLastStep h p status s).Ensures (fun _ => True) (Move b e s) := by
  refine ensures_bind (acquire_frame ?_)
  intro L C
  exact ha.release .exitLast

theorem waitEnd_moves {x havekids : Bool} (ha : Acts e s h p (.at (.waitScan x i havekids)))
    (hi : NPROC ≤ i) : (waitEnd h p x havekids s).Ensures (fun _ => True) (Move b e s) := by
  have hend : ∀ (L : LockId → Option H) (C : H → Cpu) (leave : Bool),
      (if leave then release h .wait { s with locks := L, cpu := C } >>= fun t =>
          pure (t.goThread p (.at .user))
        else pure (State.goThread { s with locks := L, cpu := C } p
          (.at (.waitSleep x)))).Ensures (fun _ => True) (Move b e s) := by
    intro L C leave
    split
    · exact ha.release .waitLeave
    · exact ha.move (.waitFull hi)
  rw [waitEnd]
  split
  · refine ensures_bind (critical_frame ?_)
    intro L C
    exact hend L C (!havekids || (s.mem.proc p).killed)
  · exact hend s.locks s.cpu (!havekids || (s.mem.proc p).killed)

theorem waitScanStep_moves {x havekids copy : Bool}
    (ha : Acts e s h p (.at (.waitScan x i havekids))) :
    (waitScanStep h p x i havekids copy s).Ensures (fun _ => True) (Move b e s) := by
  rw [waitScanStep]
  split
  · next hi =>
    dsimp only
    split
    · next hq =>
      split
      · next hz =>
        refine ensures_bind (critical_frame ?_)
        intro L C
        cases copy with
        | true => exact ha.release (.reap ⟨i, hi⟩ hq hz)
        | false => exact ha.release .waitLeave
      · next hz => exact ha.critical (.waitNext ⟨i, hi⟩ fun _ => hz)
    · next hq => exact ha.move (.waitNext ⟨i, hi⟩ fun hq' => absurd hq' hq)
  · next hi => exact waitEnd_moves ha (Nat.le_of_not_lt hi)

theorem tickPushStep_moves {demote : Bool} {ret : Pc}
    (ha : Acts e s h p (.at (.tickPush demote ret))) :
    (tickPushStep p demote ret s).Ensures (fun _ => True) (Move b e s) := by
  rw [tickPushStep]
  refine ensures_bind ?_
  generalize hm : pushQueue _ _ _ = r
  cases r with
  | blocked => trivial
  | fail e => trivial
  | ok m => exact ha.move (.tickPush hm)

theorem pcStep_moves {pc : Pc} (ha : Acts (.go h ok) s h p (.at pc)) :
    (pcStep b h p ok s pc).Ensures (fun _ => True) (Move b (.go h ok) s) := by
  cases pc with
  | user | locked => trivial
  | wakeup chan i ret => exact wakeupStep_moves ha
  | kill pid i => exact killStep_moves ha
  | forkAlloc i => exact forkAllocStep_moves ha
  | forkParent np => exact ha.critical (.forkParent np)
  | forkReady np => exact ha.critical (.forkReady np)
  | exitReparent status i => exact exitReparentStep_moves ha
  | exitLast status => exact exitLastStep_moves ha
  | waitScan x i havekids => exact waitScanStep_moves ha
  | waitSleep x => exact sleepStep_moves ha .waitSleep
  | relockOther lk => exact ha.acquire (f := id) (.goes (.relock lk))
  | relockWait x => exact ha.acquire (f := id) (.waitEnter (.inr rfl))
  | tick i ret =>
    exact ensures_guard fun _ => ha.move .tickNext
  | tickPush demote ret =>
    exact ensures_guard fun _ => tickPushStep_moves ha
  | tickYield ret => exact ha.acquire .tickYield

theorem callStep_moves {c : Call} {pc : Pc} (ha : Acts (.call h c) s h p (.at pc)) :
    (callStep b h p pc s c).Ensures (fun _ => True) (Move b (.call h c) s) := by
  have huser : pc = .user → Acts (.call h c) s h p (.at .user) := fun hpc => hpc ▸ ha
  cases c with
  | yield =>
    exact ensures_guard fun hpc => ha.acquire (.yield hpc)
  | tick =>
    exact ensures_guard fun hpc => ha.move (.tick rfl hpc.2.1)
  | lock lk =>
    exact ensures_guard fun hpc => (huser hpc).acquire (f := id) (.goes (.lock lk))
  | unlock =>
    cases pc with
    | locked lk => exact ha.release (.goes (.unlock lk))
    | _ => trivial
  | sleep obj =>
    cases pc with
    | locked lk => exact sleepStep_moves ha .sleep
    | _ => trivial
  | wakeup chan =>
    cases pc with
    | user => exact ha.move (.goes (.wakeup chan))
    | locked lk => exact ha.move (.goes (.wakeupLocked chan lk))
    | _ => trivial
  | kill pid => exact ensures_guard fun hpc => (huser hpc).move (.goes (.kill pid))
  | fork => exact ensures_guard fun hpc => (huser hpc).move (.goes .fork)
  | exit status =>
    refine ensures_guard fun hpc => ?_
    split
    · trivial
    · next hinit => exact (huser hpc).acquire (f := id) (.exit hinit)
  | wait | waitx =>
    exact ensures_guard fun hpc => (huser hpc).acquire (f := id) (.waitEnter (.inl rfl))
  | setkilled =>
    refine ensures_guard ?_
    rintro rfl
    exact ha.critical .setkilled
  | settickets n => exact ensures_guard fun hpc => (huser hpc).stays .settickets
  | setPriority q priority =>
    exact ensures_guard fun hpc => (huser hpc).stays (.setPriority q)

/-! ## The system -/

/-- What a handler of interrupts leaves. -/
structure Handled (s s' : State H) : Prop where
  mem : HandlerMem s.mem s'.mem
  thread : s'.thread = s.thread
  run : s'.run = s.run
  spc : s'.spc = s.spc

theorem interrupt_handled (he : e.interrupt = true) :
    (step b s e).Ensures (fun _ => True) (Handled s) := by
  cases e with
  | sched h r | call h c | go h ok => cases he
  | intrWakeup h chan q =>
    exact ensures_guard fun _ => critical_frame fun L C => ⟨.wake chan q, rfl, rfl, rfl⟩
  | intrTicks h => exact ensures_guard fun _ => ⟨.ticks, rfl, rfl, rfl⟩
  | intrTime h q =>
    exact ensures_guard fun _ => critical_frame fun L C => ⟨.time q, rfl, rfl, rfl⟩
  | setIntr h on => exact ensures_guard fun _ => ⟨.same, rfl, rfl, rfl⟩

theorem step_moves (e : Event H) : (step b s e).Ensures (fun _ => True) (Move b e s) := by
  cases e with
  | sched h r =>
    exact ensures_guard fun hr => schedStep_moves hr r
  | call h c =>
    simp only [step]
    split
    · trivial
    · next p hr =>
      split
      · next pc ht => exact callStep_moves ⟨rfl, hr, ht⟩
      · trivial
  | go h ok =>
    simp only [step]
    split
    · trivial
    · next p hr =>
      split
      · next pc ht => exact pcStep_moves ⟨rfl, hr, ht⟩
      · next ret ht => exact schedCall_moves ⟨rfl, hr, ht⟩
      · next ret ht => exact resumeStep_moves ⟨rfl, hr, ht⟩
      · trivial
  | intrWakeup | intrTicks | intrTime | setIntr =>
    exact (interrupt_handled rfl).mono fun s' hs => .handler hs.mem hs.thread hs.run hs.spc

end
end Xv6.Sched
