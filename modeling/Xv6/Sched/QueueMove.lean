import Xv6.Sched.Moves
import Xv6.Sched.QueueInv

/-! # What the steps of the kernel do to the MLFQ queues

`KernelMove` lists what a step may do to the queues, to the queue fields of the processes and to the
threads, as far as the MLFQ timer path depends on it. What the queues keep along a run is derived
from this list.
-/

namespace Xv6.Sched
set_option autoImplicit false
open Function (update)

structure SameQueues (m m' : Mem) : Prop where
  queue : m'.queue = m.queue
  inQueue : ∀ p, (m'.proc p).inQueue = (m.proc p).inQueue
  queuePosition : ∀ p, (m'.proc p).queuePosition = (m.proc p).queuePosition
  ticksUsed : ∀ p, (m'.proc p).ticksUsed = (m.proc p).ticksUsed

theorem SameQueues.refl (m : Mem) : SameQueues m m :=
  ⟨rfl, fun _ => rfl, fun _ => rfl, fun _ => rfl⟩

theorem SameQueues.trans {m1 m2 m3 : Mem} (h : SameQueues m1 m2) (h' : SameQueues m2 m3) :
    SameQueues m1 m3 :=
  ⟨h'.queue.trans h.queue, fun p => (h'.inQueue p).trans (h.inQueue p),
    fun p => (h'.queuePosition p).trans (h.queuePosition p),
    fun p => (h'.ticksUsed p).trans (h.ticksUsed p)⟩

theorem SameQueues.set (m : Mem) (p : Slot) {f : Proc → Proc}
    (hf : ∀ x, (f x).inQueue = x.inQueue ∧ (f x).queuePosition = x.queuePosition ∧
      (f x).ticksUsed = x.ticksUsed) : SameQueues m (m.set p f) := by
  have hproc : ∀ q, ((m.set p f).proc q).inQueue = (m.proc q).inQueue ∧
      ((m.set p f).proc q).queuePosition = (m.proc q).queuePosition ∧
      ((m.set p f).proc q).ticksUsed = (m.proc q).ticksUsed := by
    intro q
    by_cases hq : q = p
    · subst hq
      rw [Mem.set_proc_self]
      exact hf _
    · rw [Mem.set_proc_of_ne _ _ hq]
      exact ⟨rfl, rfl, rfl⟩
  exact ⟨rfl, fun q => (hproc q).1, fun q => (hproc q).2.1, fun q => (hproc q).2.2⟩

theorem SameQueues.setState (m : Mem) (p : Slot) (st : ProcState) :
    SameQueues m (m.setState p st) :=
  .set m p fun _ => ⟨rfl, rfl, rfl⟩

def Aged (m : Mem) (p : Slot) : Prop :=
  (m.proc p).inQueue = true ∧ (m.proc p).currWaitTime > MAXWAITTIME ∧ (m.proc p).queuePosition > 0

instance (m : Mem) (p : Slot) : Decidable (Aged m p) := inferInstanceAs (Decidable (_ ∧ _ ∧ _))

/-! ## Pending pushes of the timer path -/

/-- The thread is going to push its process one level down: now, or when it gets back to a place of
the timer path that it has left by `yield`. -/
def Pc.pushes : Pc → Bool
  | tickPush demote ret => demote || ret.pushes
  | tick _ ret | tickYield ret => ret.pushes
  | _ => false

/-- The push is not the next thing it does. -/
def Pc.pushesLater : Pc → Bool
  | tickPush _ ret => ret.pushes
  | pc => pc.pushes

def Ret.pushes : Ret → Bool
  | yield pc | sleep pc => pc.pushes
  | forkret | exit => false

def Thread.pushes : Thread → Bool
  | .at pc => pc.pushes
  | sched ret | resume ret => ret.pushes
  | absent => false

def Thread.pushesLater : Thread → Bool
  | .at pc => pc.pushesLater
  | sched ret | resume ret => ret.pushes
  | absent => false

theorem Pc.pushes_of_later {pc : Pc} (h : pc.pushesLater = true) : pc.pushes = true := by
  cases pc with
  | tickPush demote ret => simpa [Pc.pushes, Pc.pushesLater] using .inr h
  | _ => exact h

theorem Thread.pushes_of_later {t : Thread} (h : t.pushesLater = true) : t.pushes = true := by
  cases t with
  | «at» pc => exact Pc.pushes_of_later h
  | _ => exact h

theorem Pc.pushes_of_interruptible {pc : Pc} (h : pc.interruptible = true) : pc.pushes = false := by
  cases pc <;> first | rfl | cases h

/-- The thread has given up the processor for the timer path or for a timer interrupt, or is about
to do so after it has queued its process. -/
def Thread.waits : Thread → Bool
  | .at (.tickYield _) | sched (.yield _) => true
  | _ => false

section
variable {H : Type} [DecidableEq H] {b : Build} {e : Event H} {s s' : State H} {h : H} {p : Slot}

/-! ## The list -/

inductive SchedMove (h : H) (s : State H) (m : Mem) : Prop
  | same (hm : SameQueues s.mem m)
  | age (p : Slot) (hspc : s.spc h = .loop (.age p.val)) (hp : Aged s.mem p)
      (hm : ageOne p s.mem = .ok m)
  | fill (p : Slot) (hp : (s.mem.proc p).state = .runnable) (hin : (s.mem.proc p).inQueue = false)
      (hm : pushQueue p (s.mem.proc p).queuePosition s.mem = .ok m)
  | pop (q : ℕ) (p : Slot) (hm : popQueue q s.mem = .ok (p, m))

/-- The timer path of `p` has found that its time is used up. -/
def TimeUp (s : State H) (p : Slot) (t : Thread) : Prop :=
  ∃ i ret, s.thread p = .at (.tick i ret) ∧ t = .at (.tickPush true ret) ∧
    (s.mem.proc p).queuePosition ≤ i ∧
    maxTicks (s.mem.proc p).queuePosition ≤ (s.mem.proc p).ticksUsed

structure SchedFrame (h : H) (s s' : State H) : Prop where
  mem : SchedMove h s s'.mem
  thread : s'.thread = s.thread
  run : s'.run = s.run

structure ThreadFrame (s s' : State H) : Prop where
  run : s'.run = s.run
  spc : s'.spc = s.spc

inductive KernelMove (e : Event H) (s s' : State H) : Prop
  | still (hm : SameQueues s.mem s'.mem) (ht : s'.thread = s.thread) (hf : ThreadFrame s s')
      (hst : ∀ p, (s.mem.proc p).state = .runnable → (s'.mem.proc p).state = .runnable)
  | sched (h : H) (r : UInt32) (he : e = .sched h r) (hr : s.run h = none) (hf : SchedFrame h s s')
  | enter (h : H) (r : UInt32) (p : Slot) (l : Loc) (he : e = .sched h r) (hr : s.run h = none)
      (hl : s.spc h = .swtch p l) (hm : s'.mem = s.mem) (ht : s'.thread = s.thread)
      (hrun : s'.run = update s.run h (some p))
      (hspc : s'.spc = update s.spc h (.ret p l))
  | leave (h : H) (p : Slot) (ret : Ret) (hr : s.run h = some p) (hp : s.thread p = .sched ret)
      (hm : s'.mem = s.mem) (ht : s'.thread = update s.thread p (.resume ret))
      (hrun : s'.run = update s.run h none) (hspc : s'.spc = s.spc)
  | own (h : H) (p : Slot) (t : Thread) (hr : s.run h = some p)
      (hp : ∀ ret, s.thread p ≠ .sched ret) (hm : SameQueues s.mem s'.mem)
      (ht : s'.thread = update s.thread p t) (hf : ThreadFrame s s')
      (hpush : t.pushes = true → (s.thread p).pushesLater = true ∨ TimeUp s p t)
      (hwait : (s.thread p).waits = true → t.waits = true)
  | fork (h : H) (ok : Bool) (p q : Slot) (he : e = .go h ok) (hr : s.run h = some p)
      (hp : s.thread p = .at (.forkAlloc q.val)) (hq : (s.mem.proc q).state = .unused)
      (hm : s'.mem = allocOne p q s.mem)
      (ht : s'.thread = update (update s.thread q (.resume .forkret)) p
        (.at (.forkParent q))) (hf : ThreadFrame s s')
  | forkFail (h : H) (ok : Bool) (p q : Slot) (he : e = .go h ok) (hr : s.run h = some p)
      (hp : s.thread p = .at (.forkAlloc q.val)) (hq : (s.mem.proc q).state = .unused)
      (hm : s'.mem = allocFail p q s.mem)
      (ht : s'.thread = update s.thread p (.at .user)) (hf : ThreadFrame s s')
  | tick (h : H) (p : Slot) (pc : Pc) (he : e = .call h .tick) (hr : s.run h = some p)
      (hp : s.thread p = .at pc) (hpc : pc.interruptible = true)
      (hm : s'.mem = s.mem.set p fun x => { x with ticksUsed := x.ticksUsed + 1 })
      (ht : s'.thread = update s.thread p (.at (.tick 0 pc))) (hf : ThreadFrame s s')
  | push (h : H) (p : Slot) (demote : Bool) (ret : Pc) (hr : s.run h = some p)
      (hp : s.thread p = .at (.tickPush demote ret))
      (hm : pushQueue p (if demote then demoted (s.mem.proc p).queuePosition ret
        else (s.mem.proc p).queuePosition) (s.mem.set p fun x => { x with ticksUsed := 0 }) =
          .ok s'.mem)
      (ht : s'.thread = update s.thread p (.at (.tickYield ret))) (hf : ThreadFrame s s')

/-! ## The moves -/

theorem wakeOne_sameQueues (m : Mem) (chan : Chan) (q : Slot) :
    SameQueues m (wakeOne chan q m) := by
  unfold wakeOne
  split
  · exact .setState m q .runnable
  · exact .refl m

theorem wakeOne_runnable (m : Mem) (chan : Chan) (q r : Slot)
    (hr : (m.proc r).state = .runnable) : ((wakeOne chan q m).proc r).state = .runnable := by
  unfold wakeOne
  split
  · by_cases hrq : r = q
    · rw [hrq, Mem.setState_self]
    · rw [Mem.setState_of_ne _ _ hrq, hr]
  · exact hr

theorem killOne_sameQueues (m : Mem) (pid : ℕ) (q : Slot) : SameQueues m (killOne pid q m) := by
  unfold killOne
  split
  · exact .set _ _ fun _ => ⟨rfl, rfl, rfl⟩
  · exact .refl m

theorem freeproc_sameQueues (m : Mem) (q : Slot) : SameQueues m (freeproc q m) :=
  .set m q fun _ => ⟨rfl, rfl, rfl⟩

variable {m m' : Mem} {pc : Pc}

omit [DecidableEq H] in
theorem SchedMem.move (hm : SchedMem s h m) : SchedMove h s m := by
  cases hm with
  | same => exact .same (.refl _)
  | dispatch p hl hp => exact .same (.setState _ p .running)
  | niceness p n => exact .same (.set _ _ fun _ => ⟨rfl, rfl, rfl⟩)
  | pbs p hl | popped p hl =>
    refine .same (SameQueues.trans ?_ (.setState _ p .running))
    exact .set _ p fun _ => ⟨rfl, rfl, rfl⟩
  | age p hl hm =>
    by_cases hp : Aged s.mem p
    · exact .age p hl hp hm
    · have hno : ageOne p s.mem = .ok s.mem := if_neg hp
      cases hno.symm.trans hm
      exact .same (.refl _)
  | fill p hm =>
    rw [fillOne] at hm
    split at hm
    · next hp => exact .fill p hp.1 hp.2 hm
    · cases hm
      exact .same (.refl _)
  | pop q p hm => exact .pop q p hm

theorem Pc.Goes.pushes_eq {pc' : Pc} (hpc : pc.Goes pc') : pc'.pushes = false := by
  cases hpc <;> rfl

theorem Pc.Goes.not_waits {pc' : Pc} (hpc : pc.Goes pc') : (Thread.at pc).waits = false := by
  cases hpc <;> rfl

theorem pushes_of_mayYield (hpc : mayYield b pc = true) : pc.pushes = false := by
  rw [mayYield, Bool.or_eq_true, Bool.and_eq_true, decide_eq_true_eq] at hpc
  rcases hpc with rfl | ⟨-, hint⟩
  · rfl
  · exact Pc.pushes_of_interruptible hint

/-- The place is inside the timer path. -/
def Pc.timer : Pc → Bool
  | tick _ _ | tickPush _ _ | tickYield _ => true
  | _ => false

theorem callStep_timer (hpc : pc.timer = true) (c : Call) : callStep b h p pc s c = .blocked := by
  cases pc with
  | tick i ret | tickPush d ret | tickYield ret =>
    cases c <;> simp [callStep, mayYield, waitCall, Pc.interruptible]
  | _ => cases hpc

/-- The places from which a timer interrupt yields are outside the timer path. -/
theorem waits_of_mayYield (hpc : mayYield b pc = true) : (Thread.at pc).waits = false := by
  cases pc <;> first | rfl | simp [mayYield, Pc.interruptible] at hpc

theorem pushes_tickNext {i : ℕ} {ret : Pc} (hpush : (tickNext m p i ret).pushes = true) :
    ret.pushes = true ∨ tickNext m p i ret = .tickPush true ret ∧
      (m.proc p).queuePosition ≤ i ∧
      maxTicks (m.proc p).queuePosition ≤ (m.proc p).ticksUsed := by
  unfold tickNext at hpush ⊢
  split at hpush
  · split at hpush <;> exact .inl hpush
  · next hi =>
    split at hpush
    · next hup =>
      rw [if_neg hi, if_pos hup]
      exact .inr ⟨rfl, Nat.le_of_not_lt hi, hup⟩
    · exact .inl hpush

theorem ThreadMem.move (hr : s.run h = some p) {t t' : Thread} (hp : s.thread p = t)
    (hm : ThreadMem b e s h p t s'.mem t') (ht : s'.thread = update s.thread p t')
    (hf : ThreadFrame s s') : KernelMove e s s' := by
  have hown : SameQueues s.mem s'.mem → (∀ ret, t ≠ .sched ret) →
      (t'.pushes = true → t.pushesLater = true ∨ TimeUp s p t') →
      (t.waits = true → t'.waits = true) → KernelMove e s s' := by
    intro hq hne hpush hwait
    subst hp
    exact .own h p t' hr hne hq ht hf hpush hwait
  -- most moves push nothing
  have hquiet : SameQueues s.mem s'.mem → (∀ ret, t ≠ .sched ret) → t'.pushes = false →
      t.waits = false → KernelMove e s s' :=
    fun hq hne hpush hwait => hown hq hne (by simp [hpush]) (by simp [hwait])
  generalize hm' : s'.mem = m at hm hown hquiet
  cases hm with
  | goes hpc => exact hquiet (.refl _) (by simp) hpc.pushes_eq hpc.not_waits
  | yield hpc =>
    exact hquiet (.setState _ p .runnable) (by simp) (pushes_of_mayYield hpc)
      (waits_of_mayYield hpc)
  | tickYield =>
    exact hown (.setState _ p .runnable) (by simp) .inl fun _ => rfl
  | sleep | waitSleep | setkilled | forkParent | reparent | exitLast | setPriority =>
    exact hquiet (.set _ _ fun _ => ⟨rfl, rfl, rfl⟩) (by simp) rfl rfl
  | yielded => exact hown (.refl _) (by simp) .inl (by simp [Thread.waits])
  | slept =>
    exact hown (.set _ _ fun _ => ⟨rfl, rfl, rfl⟩) (by simp) .inl
      (by simp [Thread.waits])
  | forkret | wakeSelf | exit | reparentSkip | reparentEnd | waitNext | waitLeave | waitFull =>
    exact hquiet (.refl _) (by simp) rfl rfl
  | wake q => exact hquiet (wakeOne_sameQueues _ _ _) (by simp) rfl rfl
  | @wakeEnd chan ret i hi => exact hquiet (.refl _) (by simp) (by cases ret <;> rfl) rfl
  | kill q he hpc => exact hquiet (killOne_sameQueues _ _ _) (by simp) hpc.pushes_eq rfl
  | forkFail q he hq => exact .forkFail h _ p q he hr hp hq hm' ht hf
  | forkReady np => exact hquiet (.setState _ np .runnable) (by simp) rfl rfl
  | waitEnter hpc =>
    refine hquiet (.refl _) (by simp) rfl ?_
    rcases hpc with rfl | rfl <;> rfl
  | reap q hq hz => exact hquiet (freeproc_sameQueues _ _) (by simp) rfl rfl
  | tick he hpc => exact .tick h p _ he hr hp hpc hm' ht hf
  | @tickNext i ret =>
    refine hown (.refl _) (by simp) (fun hpush => ?_) (by simp [Thread.waits])
    rcases pushes_tickNext hpush with hret | ⟨hnext, hi, hup⟩
    · exact .inl hret
    · exact .inr ⟨i, ret, hp, congrArg Thread.at hnext, hi, hup⟩
  | tickPush hm => exact .push h p _ _ hr hp (hm.trans (congrArg Outcome.ok hm'.symm)) ht hf
  | settickets =>
    refine hquiet (sysSettickets_induction (.refl _) ?_) (by simp) rfl rfl
    intro m q _ hm
    exact hm.trans (.set _ _ fun _ => ⟨rfl, rfl, rfl⟩)

theorem HandlerMem.sameQueues (hm : HandlerMem m m') : SameQueues m m' := by
  cases hm with
  | same => exact .refl m
  | wake chan q => exact wakeOne_sameQueues m chan q
  | ticks => exact ⟨rfl, fun _ => rfl, fun _ => rfl, fun _ => rfl⟩
  | time q => exact .set m q fun _ => ⟨rfl, rfl, rfl⟩

theorem HandlerMem.runnable (hm : HandlerMem m m') (p : Slot) (hp : (m.proc p).state = .runnable) :
    (m'.proc p).state = .runnable := by
  cases hm with
  | same | ticks => exact hp
  | wake chan q => exact wakeOne_runnable m chan q p hp
  | time q => exact (Mem.set_state m q (fun _ => by rfl) p).trans hp

theorem step_move (e : Event H) : (step b s e).Ensures (fun _ => True) (KernelMove e s) := by
  refine (step_moves e).mono ?_
  intro s' hs
  cases hs with
  | sched h r he hr hm ht hrun => exact .sched h r he hr ⟨hm.move, ht, hrun⟩
  | enter h r p l he hr hl hm ht hrun hspc => exact .enter h r p l he hr hl hm ht hrun hspc
  | leave h p ret he hr hp hm ht hrun hspc => exact .leave h p ret hr hp hm ht hrun hspc
  | thread h p t he hr hm ht hrun hspc => exact hm.move hr rfl ht ⟨hrun, hspc⟩
  | fork h ok p q he hr hp hq hm ht hrun hspc =>
    exact .fork h ok p q he hr hp hq hm ht ⟨hrun, hspc⟩
  | handler hm ht hrun hspc => exact .still hm.sameQueues ht ⟨hrun, hspc⟩ hm.runnable

/-! ## The queues along a step -/

/-- What the scheduler does at `pc` is not to move a process that has waited too long. -/
def SchedPc.NoAging (m : Mem) : SchedPc → Prop
  | .loop (.age i) => ∀ hi : i < NPROC, ¬ Aged m ⟨i, hi⟩
  | _ => True

def NoAging (s : State H) : Event H → Prop
  | .sched h _ => (s.spc h).NoAging s.mem
  | _ => True

theorem SameQueues.keep (hq : SameQueues m m') : QueueKeep m m' := by
  refine ⟨hq.queue, ?_⟩
  intro p hp
  rw [hq.inQueue p] at hp
  exact ⟨hp, hq.queuePosition p⟩

theorem allocOne_keep (m : Mem) (q : Slot) : QueueKeep m (allocOne p q m) := by
  refine ⟨rfl, ?_⟩
  intro r hr
  by_cases hrq : r = q
  · subst hrq
    simp [allocOne] at hr
  · simp only [allocOne, Mem.set_proc_of_ne _ _ hrq] at hr
    exact ⟨hr, by simp [allocOne, hrq]⟩

theorem QueueInv.step (hI : QueueInv s.mem) {e : Event H} (he : NoAging s e)
    (hs : step b s e = .ok s') : QueueInv s'.mem := by
  cases (step_move e).of_ok hs with
  | still hm ht hf hst => exact hI.keep hm.keep
  | sched h r heq hr hf =>
    cases hf.mem with
    | same hm => exact hI.keep hm.keep
    | age p hspc hp hm =>
      rw [heq, NoAging, hspc] at he
      exact absurd hp (he p.isLt)
    | fill p hp hin hm => exact hI.push hm
    | pop q p hm => exact hI.pop hm
  | enter h r p l heq hr hl hm ht hrun hspc => rwa [hm]
  | leave h p ret hr hp hm ht hrun hspc => rwa [hm]
  | own h p t hr hp hm ht hf hpush hwait => exact hI.keep hm.keep
  | fork h ok p q heq hr hp hq hm ht hf =>
    rw [hm]
    exact hI.keep (allocOne_keep _ _)
  | forkFail h ok p q heq hr hp hq hm ht hf =>
    rw [hm]
    exact hI.keep ((allocOne_keep _ _).trans (freeproc_sameQueues _ _).keep)
  | tick h p pc heq hr hp hpc hm ht hf =>
    rw [hm]
    exact hI.keep (.set _ _ fun _ hx => ⟨hx, rfl⟩)
  | push h p demote ret hr hp hm ht hf =>
    refine QueueInv.push ?_ hm
    exact hI.keep (.set _ _ fun _ hx => ⟨hx, rfl⟩)

end

end Xv6.Sched
