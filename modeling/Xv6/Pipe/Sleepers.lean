import Xv6.Pipe.Ops

/-! # No stuck sleeper

A process that sleeps on `&pi->nread` waits for a byte or for the write end to be closed, one on
`&pi->nwrite` for room or for the read end to be closed. Whoever makes one of these happen holds
`pi->lock` and calls `wakeup` before it gives the lock back, with one exception: a `pipewrite` that
finds its process killed returns at once, also when it has stored bytes since it last woke the
readers.
-/

namespace Xv6.Pipe
set_option autoImplicit false
open Function (update update_self update_of_ne)

/-! ## Waiting and waking -/

def Empty (pi : Pipe) : Prop := pi.nread = pi.nwrite

def Full (pi : Pipe) : Prop := pi.nwrite = pi.nread + BitVec.ofNat 32 PIPESIZE

def Idle (pi : Pipe) : Chan → Prop
  | .nread => pi.Empty ∧ pi.writeopen = true
  | .nwrite => pi.Full ∧ pi.readopen = true

/-- The channel for which a process is in `sleep`. -/
def Pc.waitsOn : Pc → Option Chan
  | sleepWrite _ | relockWrite _ => some .nwrite
  | sleepRead _ | relockRead _ => some .nread
  | _ => none

/-- `q` sleeps on `c`, or will before anyone can take its `p->lock`. -/
def State.Waits (s : State) (q : Proc) (c : Chan) : Prop :=
  s.chan q = some c ∨ (s.pc q).dozing = true ∧ (s.pc q).waitsOn = some c

/-- The holder of `pi->lock` is at a place from which it will still wake `q`. -/
def Pc.Wakes (c : Chan) (q : Proc) : Pc → Prop
  | writeHead w | writeBody w => c = .nread ∧ w.woke < w.i
  | readLoop _ _ => c = .nwrite
  | wakeup chan k _ => chan = c ∧ k ≤ q
  | _ => False

/-- What is known about the pipe at a place. -/
def Pc.Knows (pi : Pipe) : Pc → Prop
  | writeHead w => w.woke ≤ w.i ∧ (w.woke < w.i → pi.readopen = true)
  | writeBody w => w.woke ≤ w.i ∧ pi.readopen = true
  | wakeup chan _ (.writeSleep _) => chan = .nread ∧ pi.Idle .nwrite
  | sleepWrite w | relockWrite w => w.woke = w.i
  | readSleep _ => pi.Idle .nread
  | _ => True

variable {pc : Pc} {s : State}

theorem Pc.Wakes.locked {c : Chan} {q : Proc} (h : pc.Wakes c q) : pc.locked = true := by
  cases pc <;> first | rfl | exact h.elim

theorem Pc.Knows.of_unlocked {pi pi' : Pipe} (h : pc.Knows pi) (hpc : pc.locked = false) :
    pc.Knows pi' := by
  cases pc <;> first | exact h | cases hpc

theorem Pc.not_dozing_of_locked (h : pc.locked = true) : pc.dozing = false := by
  cases pc <;> first | rfl | cases h

theorem Pc.eq_user (h : pc.isUser = true) : pc = .user := by
  cases pc <;> first | rfl | cases h

structure Sleepers (s : State) : Prop where
  lock : ∀ p, s.lock = some p ↔ (s.pc p).locked = true
  asleep : ∀ q, s.chan q ≠ none → (s.pc q).waitsOn ≠ none ∧ (s.pc q).dozing = false
  waits : ∀ q c, s.Waits q c → s.pipe.Idle c ∨ ∃ p, (s.pc p).Wakes c q
  knows : ∀ p, (s.pc p).Knows s.pipe

theorem sleepers_fresh (p : Proc) (data : Fin PIPESIZE → UInt8) : Sleepers (fresh p data) := by
  refine ⟨?_, ?_, ?_, ?_⟩
  · intro q
    constructor <;> intro h <;> cases h
  · intro q h
    exact absurd rfl h
  · rintro q c (h | ⟨h, -⟩) <;> cases h
  · intro q
    trivial

/-! ## Two kinds of steps -/

namespace Sleepers
variable {s s' : State} {p : Proc} {pc : Pc}

section
variable (h : Sleepers s) (hp : s.lock = none ∨ s.lock = some p)
include h hp

theorem eq_of_locked {q : Proc} (hq : (s.pc q).locked = true) : q = p := by
  have hlock := (h.lock q).mpr hq
  rcases hp with hp | hp
  · rw [hp] at hlock
    cases hlock
  · rw [hp] at hlock
    exact (Option.some.inj hlock).symm

theorem waits_cases {q : Proc} {c : Chan} (hw : s.Waits q c) :
    s.pipe.Idle c ∨ (s.pc p).Wakes c q := by
  rcases h.waits q c hw with hidle | ⟨r, hr⟩
  · exact .inl hidle
  · rw [h.eq_of_locked hp hr.locked] at hr
    exact .inr hr

theorem step_locked (hchan : s.chan p = none) (hpc : s'.pc = update s.pc p pc)
    (hlock : s'.lock = if pc.locked then some p else none)
    (hchan' : ∀ q, s'.chan q = s.chan q ∨ s'.chan q = none) (hknows : pc.Knows s'.pipe)
    (hdoze : ∀ c, pc.dozing = true → pc.waitsOn = some c → s'.pipe.Idle c)
    (hwaits : ∀ q c, q ≠ p → s'.Waits q c → s.Waits q c → s'.pipe.Idle c ∨ pc.Wakes c q) :
    Sleepers s' := by
  have hself : s'.pc p = pc := by
    rw [hpc, update_self]
  have hother : ∀ q, q ≠ p → s'.pc q = s.pc q := by
    intro q hq
    rw [hpc, update_of_ne hq]
  have hunlocked : ∀ q, q ≠ p → (s.pc q).locked = false := by
    intro q hq
    cases hl : (s.pc q).locked with
    | false => rfl
    | true => exact absurd (h.eq_of_locked hp hl) hq
  have hnone : s'.chan p = none := by
    rcases hchan' p with hc | hc
    · rw [hc, hchan]
    · exact hc
  refine ⟨?_, ?_, ?_, ?_⟩
  · intro q
    rw [hlock]
    by_cases hq : q = p
    · rw [hq, hself]
      cases pc.locked <;> simp
    · rw [hother q hq, hunlocked q hq]
      cases pc.locked <;> simp [Ne.symm hq]
  · intro q hne
    have hq : q ≠ p := by
      rintro rfl
      exact hne hnone
    rw [hother q hq]
    apply h.asleep q
    rcases hchan' q with hc | hc
    · rwa [← hc]
    · exact absurd hc hne
  · intro q c hw
    by_cases hq : q = p
    · subst hq
      rcases hw with hw | ⟨hd, hc⟩
      · rw [hnone] at hw
        cases hw
      · rw [hself] at hd hc
        exact .inl (hdoze c hd hc)
    · have hold : s.Waits q c := by
        rcases hw with hw | ⟨hd, hc⟩
        · rcases hchan' q with hc | hc
          · exact .inl (hc ▸ hw)
          · rw [hc] at hw
            cases hw
        · rw [hother q hq] at hd hc
          exact .inr ⟨hd, hc⟩
      rcases hwaits q c hq hw hold with hidle | hwakes
      · exact .inl hidle
      · refine .inr ⟨p, ?_⟩
        rw [hself]
        exact hwakes
  · intro q
    by_cases hq : q = p
    · rw [hq, hself]
      exact hknows
    · rw [hother q hq]
      exact (h.knows q).of_unlocked (hunlocked q hq)

end

theorem step_hold (h : Sleepers s) (hlock : s.lock = some p) (hchan : s.chan p = none)
    (hpc : s'.pc = update s.pc p pc) (hlock' : s'.lock = s.lock) (hchan' : s'.chan = s.chan)
    (hl : pc.locked = true) (hknows : pc.Knows s'.pipe)
    (hwaits : ∀ q c, q ≠ p → s.Waits q c → s'.pipe.Idle c ∨ pc.Wakes c q) : Sleepers s' := by
  refine h.step_locked (.inr hlock) hchan hpc ?_ ?_ hknows ?_ fun q c hq _ => hwaits q c hq
  · rw [hlock', hlock, hl]
    rfl
  · intro q
    rw [hchan']
    exact .inl rfl
  · intro c hd
    rw [Pc.not_dozing_of_locked hl] at hd
    cases hd

theorem step_unlocked (h : Sleepers s) (hpipe : s'.pipe = s.pipe) (hlock : s'.lock = s.lock)
    (hpc : ∀ q, s'.pc q = s.pc q ∨
      (s.pc q).locked = false ∧ (s'.pc q).locked = false ∧ (s'.pc q).Knows s.pipe)
    (hasleep : ∀ q, s'.chan q ≠ none → (s'.pc q).waitsOn ≠ none ∧ (s'.pc q).dozing = false)
    (hwaits : ∀ q c, s'.Waits q c → s.Waits q c) : Sleepers s' := by
  refine ⟨?_, hasleep, ?_, ?_⟩
  · intro q
    rw [hlock]
    rcases hpc q with hq | ⟨hq, hq', -⟩
    · rw [hq]
      exact h.lock q
    · rw [h.lock q, hq, hq']
  · intro q c hw
    rw [hpipe]
    rcases h.waits q c (hwaits q c hw) with hidle | ⟨r, hr⟩
    · exact .inl hidle
    · refine .inr ⟨r, ?_⟩
      rcases hpc r with hr' | ⟨hr', -⟩
      · rwa [hr']
      · rw [hr.locked] at hr'
        cases hr'
  · intro q
    rw [hpipe]
    rcases hpc q with hq | ⟨-, -, hq⟩
    · rw [hq]
      exact h.knows q
    · exact hq

/-! ## The steps of a process that has the lock -/

section Holder
variable (h : Sleepers s) (hchan : s.chan p = none) {n : ℤ}
include h

theorem lock_eq (hpc : s.pc p = pc) (hl : pc.locked = true) : s.lock = some p := by
  rw [h.lock p, hpc]
  exact hl

theorem knows_at (hpc : s.pc p = pc) : pc.Knows s.pipe := by
  rw [← hpc]
  exact h.knows p

theorem waits_at (hpc : s.pc p = pc) (hl : pc.locked = true) {q : Proc} {c : Chan}
    (hw : s.Waits q c) : s.pipe.Idle c ∨ pc.Wakes c q := by
  rw [← hpc]
  exact h.waits_cases (.inr (h.lock_eq hpc hl)) hw

include hchan

theorem writeHeadStep {w : Write} (hpc : s.pc p = .writeHead w)
    (hquiet : (w.i : ℤ) < w.n → s.killed p = true → w.woke = w.i) :
    Sleepers (writeHeadStep p w s) := by
  have hlock := h.lock_eq hpc rfl
  obtain ⟨hle, hopen⟩ := h.knows_at hpc
  unfold Pipe.writeHeadStep
  split_ifs with hn hstop
  · refine h.step_locked (.inr hlock) hchan rfl rfl (fun _ => .inl rfl) trivial
      (fun c hd => by cases hd) ?_
    intro q c hq _ hw
    rcases h.waits_at hpc rfl hw with hidle | ⟨-, hlt⟩
    · exact .inl hidle
    · -- bytes have been stored since the last wakeup: the read end is open, and `p` is not killed
      rcases hstop with hstop | hstop
      · rw [hopen hlt] at hstop
        cases hstop
      · have := hquiet hn hstop
        omega
  · have hr : s.pipe.readopen = true := by
      cases hr : s.pipe.readopen with
      | true => rfl
      | false => exact absurd (.inl hr) hstop
    refine h.step_hold hlock hchan rfl rfl rfl rfl ⟨hle, hr⟩ ?_
    intro q c hq hw
    exact h.waits_at hpc rfl hw
  · refine h.step_hold hlock hchan rfl rfl rfl rfl trivial ?_
    intro q c hq hw
    rcases h.waits_at hpc rfl hw with hidle | ⟨rfl, -⟩
    · exact .inl hidle
    · exact .inr ⟨rfl, Nat.zero_le _⟩

theorem writeBodyStep {w : Write} (hpc : s.pc p = .writeBody w) (ok : Bool) :
    Sleepers (writeBodyStep p w ok s) := by
  have hlock := h.lock_eq hpc rfl
  obtain ⟨hle, hopen⟩ := h.knows_at hpc
  -- whoever leaves the loop goes to `wakeup(&pi->nread)`
  have hwake : ∀ ret : WakeRet, (Pc.wakeup .nread 0 ret).Knows s.pipe →
      Sleepers (s.go p (.wakeup .nread 0 ret)) := by
    intro ret hknows
    refine h.step_hold hlock hchan rfl rfl rfl rfl hknows ?_
    intro q c hq hw
    rcases h.waits_at hpc rfl hw with hidle | ⟨rfl, -⟩
    · exact .inl hidle
    · exact .inr ⟨rfl, Nat.zero_le _⟩
  unfold Pipe.writeBodyStep
  split_ifs with hfull hok
  · exact hwake _ ⟨rfl, hfull, hopen⟩
  · refine h.step_hold hlock hchan rfl rfl rfl rfl ⟨Nat.le_succ_of_le hle, fun _ => hopen⟩ ?_
    intro q c hq hw
    rcases h.waits_at hpc rfl hw with hidle | ⟨rfl, -⟩
    · cases c with
      | nread => exact .inr ⟨rfl, Nat.lt_succ_of_le hle⟩
      | nwrite => exact absurd hidle.1 hfull
    · exact .inr ⟨rfl, Nat.lt_succ_of_le hle⟩
  · exact hwake _ trivial

theorem readHeadStep (hpc : s.pc p = .readHead n) : Sleepers (readHeadStep p n s) := by
  have hlock := h.lock_eq hpc rfl
  have hidle : ∀ q c, s.Waits q c → s.pipe.Idle c := by
    intro q c hw
    rcases h.waits_at hpc rfl hw with hidle | hno
    · exact hidle
    · exact hno.elim
  unfold Pipe.readHeadStep
  split_ifs with hempty hkilled
  · exact h.step_locked (.inr hlock) hchan rfl rfl (fun _ => .inl rfl) trivial
      (fun c hd => by cases hd) fun q c _ _ hw => .inl (hidle q c hw)
  · exact h.step_hold hlock hchan rfl rfl rfl rfl hempty fun q c _ hw => .inl (hidle q c hw)
  · exact h.step_hold hlock hchan rfl rfl rfl rfl trivial fun q c _ hw => .inl (hidle q c hw)

theorem readSleepStep (hpc : s.pc p = .readSleep n) : Sleepers (s.go p (.sleepRead n)).release := by
  have hempty : s.pipe.Idle .nread := h.knows_at hpc
  refine h.step_locked (.inr (h.lock_eq hpc rfl)) hchan rfl rfl (fun _ => .inl rfl) trivial ?_ ?_
  · intro c _ hc
    cases hc
    exact hempty
  · intro q c hq _ hw
    rcases h.waits_at hpc rfl hw with hidle | hno
    · exact .inl hidle
    · exact hno.elim

theorem readLoopStep {i : ℕ} (hpc : s.pc p = .readLoop n i) (ok : Bool) :
    Sleepers (readLoopStep p n i ok s) := by
  have hlock := h.lock_eq hpc rfl
  unfold Pipe.readLoopStep
  split_ifs with hmore hok
  · refine h.step_hold hlock hchan rfl rfl rfl rfl trivial ?_
    intro q c hq hw
    rcases h.waits_at hpc rfl hw with hidle | rfl
    · cases c with
      | nread => exact absurd hidle.1 hmore.2
      | nwrite => exact .inr rfl
    · exact .inr rfl
  · refine h.step_hold hlock hchan rfl rfl rfl rfl trivial ?_
    intro q c hq hw
    rcases h.waits_at hpc rfl hw with hidle | rfl
    · cases c with
      | nread => exact absurd hidle.1 hmore.2
      | nwrite => exact .inr ⟨rfl, Nat.zero_le _⟩
    · exact .inr ⟨rfl, Nat.zero_le _⟩
  · refine h.step_hold hlock hchan rfl rfl rfl rfl trivial ?_
    intro q c hq hw
    rcases h.waits_at hpc rfl hw with hidle | rfl
    · exact .inl hidle
    · exact .inr ⟨rfl, Nat.zero_le _⟩

theorem wakeEnd {chan : Chan} {k : ℕ} {ret : WakeRet} (hpc : s.pc p = .wakeup chan k ret)
    (hk : ¬ k < NPROC) : Sleepers (wakeEnd p s ret) := by
  have hlock := h.lock_eq hpc rfl
  have hidle : ∀ q c, s.Waits q c → s.pipe.Idle c := by
    intro q c hw
    rcases h.waits_at hpc rfl hw with hidle | ⟨-, hle⟩
    · exact hidle
    · have := q.isLt
      omega
  have hknows := h.knows_at hpc
  cases ret with
  | writeSleep w =>
    refine h.step_locked (.inr hlock) hchan rfl rfl (fun _ => .inl rfl) rfl ?_
      fun q c _ _ hw => .inl (hidle q c hw)
    intro c _ hc
    cases hc
    exact hknows.2
  | writeDone i | readDone i | closed =>
    exact h.step_locked (.inr hlock) hchan rfl rfl (fun _ => .inl rfl) trivial
      (fun c hd => by cases hd) fun q c _ _ hw => .inl (hidle q c hw)

theorem wakeupStep {chan : Chan} {k : ℕ} {ret : WakeRet} (hpc : s.pc p = .wakeup chan k ret)
    (hs : wakeupStep p chan k ret s = some s') : Sleepers s' := by
  have hlock := h.lock_eq hpc rfl
  have hknows : (Pc.wakeup chan (k + 1) ret).Knows s.pipe := by
    have := h.knows_at hpc
    cases ret <;> exact this
  unfold Pipe.wakeupStep at hs
  dsimp only at hs
  split_ifs at hs with hk hq hdoze <;> cases hs
  · refine h.step_hold hlock hchan rfl rfl rfl rfl hknows ?_
    intro q c hne hw
    rcases h.waits_at hpc rfl hw with hidle | ⟨rfl, hle⟩
    · exact .inl hidle
    · have hkq : k ≠ q := by
        rintro rfl
        exact hne hq
      exact .inr ⟨rfl, by omega⟩
  · refine h.step_locked (.inr hlock) hchan rfl hlock ?_ hknows (fun c hd => by cases hd) ?_
    · intro q
      by_cases hqk : q = ⟨k, hk⟩
      · subst hqk
        simp only [State.go, State.wake, update_self]
        split_ifs
        · exact .inr rfl
        · exact .inl rfl
      · exact .inl (update_of_ne hqk _ _)
    · intro q c hne hw' hw
      rcases h.waits_at hpc rfl hw with hidle | ⟨rfl, hle⟩
      · exact .inl hidle
      · have hkq : k ≠ q := by
          -- the process just looked at is not waiting on `chan` any more
          rintro rfl
          rcases hw' with hc | ⟨hd, -⟩
          · simp only [State.go, State.wake, update_self] at hc
            split_ifs at hc with heq
            exact heq hc
          · simp only [State.go, State.wake, update_of_ne hne] at hd
            exact hdoze hd
        exact .inr ⟨rfl, by omega⟩
  · exact h.wakeEnd hchan hpc hk

end Holder

/-! ## The other steps -/

section
variable (h : Sleepers s)
include h

theorem awake (hpc : (s.pc p).waitsOn = none) : s.chan p = none := by
  by_contra hne
  exact (h.asleep p hne).1 hpc

theorem step_acquire (hfree : s.lock = none) (hchan : s.chan p = none)
    (hpc : s'.pc = update s.pc p pc) (hlock : s'.lock = some p) (hchan' : s'.chan = s.chan)
    (hl : pc.locked = true) (hknows : pc.Knows s'.pipe)
    (hwaits : ∀ q c, s.pipe.Idle c → s'.pipe.Idle c ∨ pc.Wakes c q) : Sleepers s' := by
  have hunlocked : (s.pc p).locked = false := by
    cases hp : (s.pc p).locked with
    | false => rfl
    | true =>
      have := (h.lock p).mpr hp
      rw [hfree] at this
      cases this
  refine h.step_locked (.inl hfree) hchan hpc ?_ ?_ hknows ?_ ?_
  · rw [hlock, hl]
    rfl
  · intro q
    rw [hchan']
    exact .inl rfl
  · intro c hd
    rw [Pc.not_dozing_of_locked hl] at hd
    cases hd
  · intro q c _ _ hw
    rcases h.waits_cases (.inl hfree) hw with hidle | hno
    · exact hwaits q c hidle
    · rw [hno.locked] at hunlocked
      cases hunlocked

theorem acquire (hchan : s.chan p = none) (hs : acquire p pc s = some s') (hl : pc.locked = true)
    (hknows : pc.Knows s.pipe) : Sleepers s' := by
  unfold Pipe.acquire at hs
  split_ifs at hs with hfree
  cases hs
  exact h.step_acquire hfree hchan rfl rfl rfl hl hknows fun q c hidle => .inl hidle

theorem closeStep (hchan : s.chan p = none) (writable : Bool)
    (hs : closeStep p writable s = some s') : Sleepers s' := by
  cases writable with
  | true =>
    unfold Pipe.closeStep Pipe.acquire at hs
    rw [if_pos rfl] at hs
    split_ifs at hs with hfree
    cases hs
    refine h.step_acquire hfree hchan rfl rfl rfl rfl trivial ?_
    intro q c hidle
    cases c with
    | nread => exact .inr ⟨rfl, Nat.zero_le _⟩
    | nwrite => exact .inl hidle
  | false =>
    unfold Pipe.closeStep Pipe.acquire at hs
    rw [if_neg Bool.false_ne_true] at hs
    split_ifs at hs with hfree
    cases hs
    refine h.step_acquire hfree hchan rfl rfl rfl rfl trivial ?_
    intro q c hidle
    cases c with
    | nread => exact .inl hidle
    | nwrite => exact .inr ⟨rfl, Nat.zero_le _⟩

theorem sleep {c : Chan} (hd : (s.pc p).dozing = true) (hc : (s.pc p).waitsOn = some c)
    (hl : pc.locked = false) (hw : pc.waitsOn = some c) (hd' : pc.dozing = false)
    (hknows : pc.Knows s.pipe) : Sleepers (s.sleep p c pc) := by
  have hself : (s.sleep p c pc).pc p = pc := update_self _ _ _
  have hother : ∀ q, q ≠ p → (s.sleep p c pc).pc q = s.pc q := fun q hq =>
    update_of_ne hq _ _
  have hchan : ∀ q, q ≠ p → (s.sleep p c pc).chan q = s.chan q := fun q hq =>
    update_of_ne hq _ _
  refine h.step_unlocked rfl rfl ?_ ?_ ?_
  · intro q
    by_cases hq : q = p
    · subst hq
      have hunlocked : (s.pc q).locked = false := by
        cases hlk : (s.pc q).locked with
        | false => rfl
        | true =>
          rw [Pc.not_dozing_of_locked hlk] at hd
          cases hd
      rw [hself]
      exact .inr ⟨hunlocked, hl, hknows⟩
    · exact .inl (hother q hq)
  · intro q hne
    by_cases hq : q = p
    · rw [hq, hself, hw]
      exact ⟨by simp, hd'⟩
    · rw [hother q hq]
      rw [hchan q hq] at hne
      exact h.asleep q hne
  · intro q c' hw'
    by_cases hq : q = p
    · subst hq
      rcases hw' with hw' | ⟨hd'', -⟩
      · obtain rfl : c = c' := by simpa [State.sleep] using hw'
        exact .inr ⟨hd, hc⟩
      · rw [hself, hd'] at hd''
        cases hd''
    · rw [State.Waits, hother q hq, hchan q hq] at hw'
      exact hw'

theorem step_user (hpipe : s'.pipe = s.pipe) (hlock : s'.lock = s.lock) (hpc : s'.pc = s.pc)
    (hchan : ∀ q, s'.chan q = s.chan q ∨ s'.chan q = none) : Sleepers s' := by
  refine h.step_unlocked hpipe hlock (fun q => .inl (by rw [hpc])) ?_ ?_
  · intro q hne
    rw [hpc]
    apply h.asleep q
    rcases hchan q with hq | hq
    · rwa [← hq]
    · exact absurd hq hne
  · intro q c hw
    rw [State.Waits, hpc] at hw
    rcases hchan q with hq | hq
    · rwa [hq] at hw
    · rw [hq] at hw
      rcases hw with hw | hw
      · cases hw
      · exact .inr hw

theorem startClose (hp : s.pc p = .user) (writable : Bool) :
    Sleepers (s.go p (.closing writable)) := by
  refine h.step_unlocked rfl rfl ?_ ?_ ?_
  · intro q
    by_cases hq : q = p
    · subst hq
      refine .inr ⟨by rw [hp]; rfl, ?_, ?_⟩ <;> rw [State.go_pc_self]
      · rfl
      · trivial
    · exact .inl (update_of_ne hq _ _)
  · intro q hne
    have hq : q ≠ p := by
      rintro rfl
      exact hne (h.awake (by rw [hp]; rfl))
    rw [State.go_pc_of_ne _ _ hq]
    exact h.asleep q hne
  · rintro q c (hw | ⟨hd, hc⟩)
    · exact .inl hw
    · by_cases hq : q = p
      · rw [hq, State.go_pc_self] at hd
        cases hd
      · rw [State.go_pc_of_ne _ _ hq] at hd hc
        exact .inr ⟨hd, hc⟩

theorem drop (hp : s.pc p = .user) (writable : Bool) : Sleepers (drop p writable s) := by
  have hfds : Sleepers (s.dropFd p writable) := by
    cases writable <;> exact h.step_user rfl rfl rfl fun q => .inl rfl
  have hpc : (s.dropFd p writable).pc p = .user := by
    cases writable <;> exact hp
  unfold Pipe.drop
  dsimp only
  split_ifs
  · exact hfds
  · exact hfds.startClose hpc writable

theorem pcStep (hchan : s.chan p = none) {ok : Bool}
    (hquiet : ∀ w, s.pc p = .writeHead w → (w.i : ℤ) < w.n → s.killed p = true → w.woke = w.i)
    (hs : pcStep p ok s (s.pc p) = some s') : Sleepers s' := by
  cases hpc : s.pc p with
  | user =>
    rw [hpc] at hs
    cases hs
  | writeHead w =>
    rw [hpc] at hs
    cases hs
    exact h.writeHeadStep hchan hpc (hquiet w hpc)
  | writeBody w =>
    rw [hpc] at hs
    cases hs
    exact h.writeBodyStep hchan hpc ok
  | readHead n =>
    rw [hpc] at hs
    cases hs
    exact h.readHeadStep hchan hpc
  | readSleep n =>
    rw [hpc] at hs
    cases hs
    exact h.readSleepStep hchan hpc
  | readLoop n i =>
    rw [hpc] at hs
    cases hs
    exact h.readLoopStep hchan hpc ok
  | wakeup chan k ret =>
    rw [hpc] at hs
    exact h.wakeupStep hchan hpc hs
  | sleepWrite w =>
    rw [hpc] at hs
    cases hs
    have hwoke : w.woke = w.i := h.knows_at hpc
    exact h.sleep (by rw [hpc]; rfl) (by rw [hpc]; rfl) rfl rfl rfl hwoke
  | sleepRead n =>
    rw [hpc] at hs
    cases hs
    exact h.sleep (by rw [hpc]; rfl) (by rw [hpc]; rfl) rfl rfl rfl trivial
  | relockWrite w =>
    rw [hpc] at hs
    have hwoke : w.woke = w.i := h.knows_at hpc
    exact h.acquire hchan hs rfl ⟨hwoke.le, fun hlt => absurd hwoke hlt.ne⟩
  | relockRead n =>
    rw [hpc] at hs
    exact h.acquire hchan hs rfl trivial
  | closing writable =>
    rw [hpc] at hs
    exact h.closeStep hchan writable hs

theorem enter (hs : enter p pc s = some s') (hl : pc.locked = true) (hknows : pc.Knows s.pipe) :
    Sleepers s' := by
  unfold Pipe.enter at hs
  split_ifs at hs with huser
  have h' : Sleepers { s with trace := s.trace.start p } :=
    h.step_user rfl rfl rfl fun q => .inl rfl
  refine h'.acquire (h'.awake ?_) hs hl hknows
  rw [Pc.eq_user huser]
  rfl

end

end Sleepers

/-! ## The system -/

/-- No `pipewrite` finds its process killed when it has stored a byte since it last woke the
readers. -/
def Announced (s : State) : Event → Prop
  | .go p _ => ∀ w, s.pc p = .writeHead w → (w.i : ℤ) < w.n → s.killed p = true → w.woke = w.i
  | .write .. | .read .. | .close .. | .fork .. | .kill _ => True

theorem Sleepers.step {s' : State} {e : Event} (h : Sleepers s) (he : Announced s e)
    (hs : step s e = some s') : Sleepers s' := by
  cases e with
  | write p n src =>
    simp only [Pipe.step] at hs
    split_ifs at hs
    have h' : Sleepers { s with trace := s.trace.offer p src } :=
      h.step_user rfl rfl rfl fun q => .inl rfl
    exact h'.enter hs rfl ⟨le_refl _, fun hlt => absurd hlt (lt_irrefl _)⟩
  | read p n =>
    simp only [Pipe.step] at hs
    split_ifs at hs
    exact h.enter hs rfl trivial
  | close p writable =>
    simp only [Pipe.step] at hs
    split_ifs at hs with huser
    cases hs
    exact h.drop (Pc.eq_user huser.1) writable
  | fork p q =>
    simp only [Pipe.step] at hs
    split_ifs at hs
    cases hs
    exact h.step_user rfl rfl rfl fun q => .inl rfl
  | kill q =>
    simp only [Pipe.step] at hs
    split_ifs at hs
    cases hs
    refine h.step_user rfl rfl rfl ?_
    intro r
    by_cases hr : r = q
    · rw [hr]
      exact .inr (update_self _ _ _)
    · exact .inl (update_of_ne hr _ _)
  | go p ok =>
    simp only [Pipe.step] at hs
    split_ifs at hs with hchan
    exact h.pcStep hchan he hs

theorem sleepers_of_announced (hs : (sys.restrict Announced).Reachable s) : Sleepers s := by
  refine hs.invariant ?_ ?_
  · rintro s ⟨p, data, rfl⟩
    exact sleepers_fresh p data
  · intro s e s' h hstep
    exact h.step hstep.1 hstep.2

/-- While `pi->lock` is free, no process sleeps although what it waits for has happened. -/
theorem no_stuck_sleeper {s : State} (hs : (sys.restrict Announced).Reachable s)
    (hfree : s.lock = none) (q : Proc) :
    ¬ (s.chan q = some .nread ∧ (s.pipe.nread ≠ s.pipe.nwrite ∨ s.pipe.writeopen = false)) ∧
    ¬ (s.chan q = some .nwrite ∧
      (s.pipe.nwrite ≠ s.pipe.nread + BitVec.ofNat 32 PIPESIZE ∨ s.pipe.readopen = false)) := by
  have h := sleepers_of_announced hs
  have hidle : ∀ c, s.chan q = some c → s.pipe.Idle c := by
    intro c hc
    rcases h.waits q c (.inl hc) with hidle | ⟨p, hp⟩
    · exact hidle
    · have hlock := (h.lock p).mpr hp.locked
      rw [hfree] at hlock
      cases hlock
  constructor
  · rintro ⟨hc, hne | hopen⟩
    · exact hne (hidle _ hc).1
    · rw [(hidle _ hc).2] at hopen
      cases hopen
  · rintro ⟨hc, hne | hopen⟩
    · exact hne (hidle _ hc).1
    · rw [(hidle _ hc).2] at hopen
      cases hopen

/-- Decided from the program counter: only a `pipewrite` at the head of its loop matters. -/
def announced (s : State) : Event → Bool
  | .go p _ =>
    match s.pc p with
    | .writeHead w => !((w.i : ℤ) < w.n && s.killed p) || w.woke == w.i
    | _ => true
  | _ => true

theorem announced_iff {e : Event} : announced s e = true ↔ Announced s e := by
  cases e with
  | go p ok =>
    cases hpc : s.pc p with
    | writeHead w => simp [announced, Announced, hpc, or_iff_not_imp_left]
    | _ => simp [announced, Announced, hpc]
  | _ => simp [announced, Announced]

instance (s : State) (e : Event) : Decidable (Announced s e) :=
  decidable_of_iff _ announced_iff

def secondProc : Proc := ⟨1, one_lt_NPROC⟩

def childReads : List Event :=
  .fork firstProc secondProc :: .read secondProc 1 :: List.replicate 3 (.go secondProc true)

theorem no_stuck_sleeper_childReads : ∃ s : State, (sys.restrict Announced).Reachable s ∧
    s.lock = none ∧ s.chan secondProc = some .nread ∧ s.pipe.nread = s.pipe.nwrite ∧
    s.pipe.writeopen = true := by
  have hrun : (run Announced childReads).map (fun s => (s.lock, s.chan secondProc)) =
      some (none, some .nread) := by decide +kernel
  obtain ⟨s, hs, h⟩ := Option.map_eq_some_iff.mp hrun
  simp only [Prod.mk.injEq] at h
  have hreach := reachable_of_run hs
  have hno := (no_stuck_sleeper hreach h.1 secondProc).1
  rw [not_and_or, not_or] at hno
  obtain hno | ⟨hempty, hopen⟩ := hno
  · exact absurd h.2 hno
  · exact ⟨s, hreach, h.1, h.2, not_not.mp hempty, by simpa using hopen⟩

/-- The first process stores one of the two bytes it writes, is killed, and returns -1 from the
head of the loop without waking its child: the child sleeps, though the pipe is not empty. -/
theorem stuck_reader : ∃ s : State, sys.Reachable s ∧ s.lock = none ∧
    s.chan secondProc = some .nread ∧ s.pipe.nread ≠ s.pipe.nwrite := by
  have hrun : (run (fun _ _ => True) (childReads ++ [.write firstProc 2 fun _ => 7,
      .go firstProc true, .go firstProc true, .kill firstProc, .go firstProc true])).map (fun s =>
        (s.lock, s.chan secondProc, s.pipe.nread, s.pipe.nwrite)) =
      some (none, some .nread, 0, 1) := by decide +kernel
  obtain ⟨s, hs, h⟩ := Option.map_eq_some_iff.mp hrun
  simp only [Prod.mk.injEq] at h
  obtain ⟨hlock, hchan, hread, hwrite⟩ := h
  refine ⟨s, (reachable_of_run hs).unrestrict, hlock, hchan, ?_⟩
  rw [hread, hwrite]
  decide

end Xv6.Pipe
