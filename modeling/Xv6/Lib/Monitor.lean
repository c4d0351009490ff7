import Mathlib.Data.Nat.Notation
import Mathlib.Logic.Function.Basic
import Xv6.Lib.Outcome
import Xv6.Lib.TransSys

/-! # Monitors: a lock, shared data and one channel

Any number of processes run a program whose code sections are protected by one spinlock; inside them
a process may sleep on the channel, and wake the sleepers. The processes have a lock of their own
each, which `sleep` takes before it gives the monitor's lock back and keeps until the process is
asleep, and which the loop of `wakeup` takes for each process in turn. A sleeper may also be woken
from outside.

The rule `Sound.ok` is the one for programs that sleep only while a condition is false, and call
`wakeup` before they give the lock back if they have made it true: whenever the lock is free, no
process sleeps while the condition holds.
-/

set_option autoImplicit false
open Function (update update_self update_of_ne update_eq_self update_eq_self_iff)

namespace Monitor

/-! ## Programs -/

/-- What a process that holds the lock does next; it goes on at `pc`. -/
inductive Act (σ π : Type) where
  | go (s : σ) (pc : π)
  | wake (s : σ) (pc : π)
  | sleep (pc : π)
  | leave (s : σ) (pc : π)

/-- The code of the processes: `π` are its places, `σ` is the shared data, `α` labels the steps a
process takes without the lock. -/
structure Program (n : ℕ) (σ π α ε : Type) where
  enters : π → Bool
  free : α → Fin n → σ → π → Option (σ × π)
  act : Fin n → σ → π → Outcome ε (Act σ π)

/-- The program whose processes take only the steps with a label in `A`. -/
def Program.only {n : ℕ} {σ π α ε : Type} (P : Program n σ π α ε) (A : α → Bool) :
    Program n σ π α ε :=
  { P with free := fun a p d pc => if A a then P.free a p d pc else none }

/-- Where a process stands: outside, with the lock held, in the loop of `wakeup` at process `k`, in
`sleep` with its own lock held, asleep, or awake and about to take the lock again. -/
inductive Mode (π : Type) where
  | out (pc : π)
  | inside (pc : π)
  | waking (k : ℕ) (pc : π)
  | dozing (pc : π)
  | sleeping (pc : π)
  | woken (pc : π)
  deriving DecidableEq

namespace Mode
variable {π : Type}

def place : Mode π → π
  | out pc | inside pc | waking _ pc | dozing pc | sleeping pc | woken pc => pc

def locked : Mode π → Bool
  | inside _ | waking _ _ => true
  | _ => false

/-- Asleep, or going to be before anyone can take the process's own lock. -/
def waits : Mode π → Bool
  | dozing _ | sleeping _ => true
  | _ => false

def wake : Mode π → Mode π
  | sleeping pc => woken pc
  | m => m

@[simp] theorem wake_place (m : Mode π) : m.wake.place = m.place := by cases m <;> rfl

@[simp] theorem wake_locked (m : Mode π) : m.wake.locked = m.locked := by cases m <;> rfl

end Mode

structure State (n : ℕ) (σ π : Type) where
  data : σ
  lock : Option (Fin n)
  mode : Fin n → Mode π

inductive Event (n : ℕ) (α : Type) where
  | free (p : Fin n) (a : α)
  | enter (p : Fin n)
  | act (p : Fin n)
  | wake (p : Fin n)
  | doze (p : Fin n)
  | rouse (p : Fin n)
  | resume (p : Fin n)

variable {n : ℕ} {σ π α ε : Type}

def State.go (s : State n σ π) (p : Fin n) (m : Mode π) : State n σ π :=
  { s with mode := update s.mode p m }

def State.place (s : State n σ π) (p : Fin n) : π := (s.mode p).place

def State.acquire (s : State n σ π) (p : Fin n) (pc : π) : Outcome ε (State n σ π) :=
  if s.lock = none then .ok { s.go p (.inside pc) with lock := some p } else .blocked

def State.perform (s : State n σ π) (p : Fin n) : Act σ π → State n σ π
  | .go d pc => { s.go p (.inside pc) with data := d }
  | .wake d pc => { s.go p (.waking 0 pc) with data := d }
  | .sleep pc => { s.go p (.dozing pc) with lock := none }
  | .leave d pc => { s.go p (.out pc) with data := d, lock := none }

/-- `wakeup` at process `k`, whose own lock is taken: it is not free while the process dozes. -/
def State.wakeAt (s : State n σ π) (p : Fin n) (k : ℕ) (pc : π) : Outcome ε (State n σ π) :=
  if hk : k < n then
    let q : Fin n := ⟨k, hk⟩
    if q = p then .ok (s.go p (.waking (k + 1) pc))
    else match s.mode q with
      | .dozing _ => .blocked
      | m => .ok ((s.go q m.wake).go p (.waking (k + 1) pc))
  else .ok (s.go p (.inside pc))

def step (P : Program n σ π α ε) (s : State n σ π) : Event n α → Outcome ε (State n σ π)
  | .free p a =>
    match s.mode p with
    | .out pc =>
      match P.free a p s.data pc with
      | none => .blocked
      | some (d, pc') => .ok { s.go p (.out pc') with data := d }
    | _ => .blocked
  | .enter p =>
    match s.mode p with
    | .out pc => if P.enters pc then s.acquire p pc else .blocked
    | _ => .blocked
  | .act p =>
    match s.mode p with
    | .inside pc => P.act p s.data pc >>= fun a => pure (s.perform p a)
    | _ => .blocked
  | .wake p =>
    match s.mode p with
    | .waking k pc => s.wakeAt p k pc
    | _ => .blocked
  | .doze p =>
    match s.mode p with
    | .dozing pc => .ok (s.go p (.sleeping pc))
    | _ => .blocked
  | .rouse p =>
    match s.mode p with
    | .sleeping pc => .ok (s.go p (.woken pc))
    | _ => .blocked
  | .resume p =>
    match s.mode p with
    | .woken pc => s.acquire p pc
    | _ => .blocked

def sys (P : Program n σ π α ε) (d : σ) (start : π) : TransSys (State n σ π) (Event n α) where
  init := fun s => s = ⟨d, none, fun _ => .out start⟩
  step := fun s e s' => step P s e = .ok s'

/-! ## The rule -/

/-- What an action of `p` has to meet, for a relation `J` between the shared data and the places of
the processes and a condition `ready` to wait for. -/
def Act.Sound (J : σ → (Fin n → π) → Prop) (ready : σ → Prop) (p : Fin n) (d : σ) (pl : Fin n → π) :
    Act σ π → Prop
  | go d' pc | leave d' pc => J d' (update pl p pc) ∧ (ready d' → ready d)
  | wake d' pc => J d' (update pl p pc)
  | sleep pc => J d (update pl p pc) ∧ ¬ ready d

structure Program.Sound (P : Program n σ π α ε) (J : σ → (Fin n → π) → Prop) (ready : σ → Prop) :
    Prop where
  free : ∀ {a p d pl d' pc}, J d pl → P.free a p d (pl p) = some (d', pc) →
    J d' (update pl p pc) ∧ (ready d' → ready d)
  act : ∀ {p d pl a}, J d pl → P.act p d (pl p) = .ok a → a.Sound J ready p d pl

def State.Wakes (s : State n σ π) (p q : Fin n) : Prop :=
  ∃ k pc, s.mode p = .waking k pc ∧ k ≤ q.val

structure Ok (J : σ → (Fin n → π) → Prop) (ready : σ → Prop) (s : State n σ π) : Prop where
  lock : ∀ p, s.lock = some p ↔ (s.mode p).locked = true
  data : J s.data s.place
  waits : ∀ q, (s.mode q).waits = true → ready s.data → ∃ p, s.Wakes p q

section
variable {J : σ → (Fin n → π) → Prop} {ready : σ → Prop} {s s' : State n σ π} {p : Fin n}

variable {pc : π} {m : Mode π}

/-- Whenever the lock is free, no process sleeps while the condition holds. -/
theorem Ok.not_ready_of_free (h : Ok J ready s) (hlock : s.lock = none) {q : Fin n}
    (hq : s.mode q = .sleeping pc) : ¬ ready s.data := by
  intro hready
  obtain ⟨p, k, pc', hp, -⟩ := h.waits q (by rw [hq]; rfl) hready
  have hheld := (h.lock p).mpr (by rw [hp]; rfl)
  rw [hlock] at hheld
  cases hheld

theorem Ok.eq_of_locked (h : Ok J ready s) (hp : s.lock = none ∨ s.lock = some p) {q : Fin n}
    (hq : (s.mode q).locked = true) : q = p := by
  have hlock := (h.lock q).mpr hq
  rcases hp with hp | hp
  · rw [hp] at hlock
    cases hlock
  · rw [hp] at hlock
    exact (Option.some.inj hlock).symm

/-! ## One step -/

theorem place_of_mode (hmode : s'.mode = update s.mode p m) :
    s'.place = update s.place p m.place := by
  funext q
  by_cases hq : q = p
  · subst hq
    simp [State.place, hmode]
  · simp [State.place, hmode, hq]

/-- How a step of `p` may change who holds the lock. -/
def LockStep (s s' : State n σ π) (p : Fin n) (m : Mode π) : Prop :=
  (s'.lock = s.lock ∧ m.locked = (s.mode p).locked) ∨
    ((s.lock = none ∨ s.lock = some p) ∧ s'.lock = if m.locked then some p else none)

theorem Ok.lock_step (h : Ok J ready s) (hmode : s'.mode = update s.mode p m)
    (hlock : LockStep s s' p m) (q : Fin n) : s'.lock = some q ↔ (s'.mode q).locked = true := by
  by_cases hq : q = p
  · subst hq
    rw [hmode, update_self]
    rcases hlock with ⟨hl, hm⟩ | ⟨-, hl⟩
    · rw [hl, hm]
      exact h.lock q
    · rw [hl]
      cases m.locked <;> simp
  · rw [hmode, update_of_ne hq]
    rcases hlock with ⟨hl, -⟩ | ⟨hfree, hl⟩
    · rw [hl]
      exact h.lock q
    · have hunlocked : (s.mode q).locked = false := by
        cases hql : (s.mode q).locked with
        | false => rfl
        | true => exact absurd (h.eq_of_locked hfree hql) hq
      rw [hl, hunlocked]
      cases m.locked <;> simp [Ne.symm hq]

theorem Ok.move (h : Ok J ready s) (hmode : s'.mode = update s.mode p m) (hlock : LockStep s s' p m)
    (hJ : J s'.data (update s.place p m.place)) (hready : ready s'.data → ready s.data)
    (hwaits : m.waits = true → (s.mode p).waits = true ∨ ¬ ready s.data)
    (hwakes : ∀ q, ¬ s.Wakes p q) : Ok J ready s' := by
  refine ⟨h.lock_step hmode hlock, by rwa [place_of_mode hmode], ?_⟩
  intro q hq hr
  have hold : (s.mode q).waits = true := by
    by_cases hqp : q = p
    · subst hqp
      rw [hmode, update_self] at hq
      exact (hwaits hq).resolve_right (not_not.mpr (hready hr))
    · rwa [hmode, update_of_ne hqp] at hq
  obtain ⟨r, k, pc, hr', hk⟩ := h.waits q hold (hready hr)
  have hrp : r ≠ p := by
    rintro rfl
    exact hwakes q ⟨k, pc, hr', hk⟩
  exact ⟨r, k, pc, by rw [hmode, update_of_ne hrp, hr'], hk⟩

theorem Ok.startWake (h : Ok J ready s) (hmode : s'.mode = update s.mode p (.waking 0 pc))
    (hlock : LockStep s s' p (.waking 0 pc)) (hJ : J s'.data (update s.place p pc)) :
    Ok J ready s' := by
  refine ⟨h.lock_step hmode hlock, by rwa [place_of_mode hmode], ?_⟩
  intro q _ _
  exact ⟨p, 0, pc, by rw [hmode, update_self], Nat.zero_le _⟩

/-- An iteration of the loop of `wakeup`: process `k` is looked at, unless it is `p` itself. -/
theorem Ok.advance (h : Ok J ready s) {k : ℕ} (hp : s.mode p = .waking k pc)
    (hdata : s'.data = s.data) (hlock : s'.lock = s.lock) (hself : s'.mode p = .waking (k + 1) pc)
    (hother : ∀ q, q ≠ p → s'.mode q = if q.val = k then (s.mode q).wake else s.mode q)
    (hdoze : ∀ q, q ≠ p → q.val = k → ∀ pc, s.mode q ≠ .dozing pc) : Ok J ready s' := by
  have hheld : s.lock = some p := (h.lock p).mpr (by rw [hp]; rfl)
  have hkeep : ∀ q, (s'.mode q).locked = (s.mode q).locked ∧ s'.place q = s.place q := by
    intro q
    by_cases hq : q = p
    · rw [State.place, State.place, hq, hself, hp]
      exact ⟨rfl, rfl⟩
    · rw [State.place, State.place, hother q hq]
      split
      · simp
      · exact ⟨rfl, rfl⟩
  refine ⟨?_, ?_, ?_⟩
  · intro q
    rw [hlock, (hkeep q).1]
    exact h.lock q
  · rw [hdata, show s'.place = s.place from funext fun q => (hkeep q).2]
    exact h.data
  · intro q hq hr
    rw [hdata] at hr
    have hqp : q ≠ p := by
      rintro rfl
      rw [hself] at hq
      cases hq
    rw [hother q hqp] at hq
    split at hq
    · -- the process that has been looked at is not asleep any more
      next hqk =>
      exfalso
      cases hm : s.mode q with
      | dozing pc' => exact hdoze q hqp hqk pc' hm
      | _ => rw [hm] at hq; cases hq
    · next hqk =>
      obtain ⟨r, j, pc', hr', hj⟩ := h.waits q hq hr
      obtain rfl : r = p := h.eq_of_locked (.inr hheld) (by rw [hr']; rfl)
      obtain ⟨rfl, rfl⟩ : k = j ∧ pc = pc' := by simpa using hp.symm.trans hr'
      exact ⟨r, k + 1, pc, hself, by omega⟩

theorem not_wakes_of_mode (hp : s.mode p = m) (hm : ∀ k pc, m ≠ .waking k pc) (q : Fin n) :
    ¬ s.Wakes p q := by
  rintro ⟨k, pc, h, -⟩
  exact hm k pc (hp.symm.trans h)

end

/-! ## Whole runs -/

section
variable {P : Program n σ π α ε} {J : σ → (Fin n → π) → Prop} {ready : σ → Prop}
variable {s s' : State n σ π} {p : Fin n} {pc : π}

theorem Ok.acquire (h : Ok J ready s) (hp : s.place p = pc) (hwakes : ∀ q, ¬ s.Wakes p q)
    (hs : (s.acquire p pc : Outcome ε _) = .ok s') : Ok J ready s' := by
  rw [State.acquire] at hs
  split at hs
  · next hlock =>
    cases hs
    refine h.move rfl (.inr ⟨.inl hlock, rfl⟩) ?_ id nofun hwakes
    have hsame : update s.place p pc = s.place := by
      rw [update_eq_self_iff, hp]
    exact hsame.symm ▸ h.data
  · cases hs

theorem Ok.perform (hP : P.Sound J ready) (h : Ok J ready s) (hp : s.mode p = .inside pc)
    {a : Act σ π} (ha : P.act p s.data pc = .ok a) : Ok J ready (s.perform p a) := by
  have hplace : s.place p = pc := by rw [State.place, hp]; rfl
  have hheld : s.lock = some p := (h.lock p).mpr (by rw [hp]; rfl)
  have hwakes : ∀ q, ¬ s.Wakes p q := not_wakes_of_mode hp nofun
  rw [← hplace] at ha
  have hsound := hP.act h.data ha
  cases a with
  | go d pc' => exact h.move rfl (.inr ⟨.inr hheld, hheld⟩) hsound.1 hsound.2 nofun hwakes
  | wake d pc' => exact h.startWake rfl (.inr ⟨.inr hheld, hheld⟩) hsound
  | sleep pc' =>
    exact h.move rfl (.inr ⟨.inr hheld, rfl⟩) hsound.1 id (fun _ => .inr hsound.2) hwakes
  | leave d pc' => exact h.move rfl (.inr ⟨.inr hheld, rfl⟩) hsound.1 hsound.2 nofun hwakes

theorem Ok.wakeAt (h : Ok J ready s) {k : ℕ} (hp : s.mode p = .waking k pc)
    (hs : (s.wakeAt p k pc : Outcome ε _) = .ok s') : Ok J ready s' := by
  rw [State.wakeAt] at hs
  split at hs
  · next hk =>
    dsimp only at hs
    split at hs
    · next hself =>
      cases hs
      have hpk : p.val = k := (congrArg Fin.val hself).symm
      refine h.advance hp rfl rfl (update_self _ _ _) ?_ ?_
      · intro q hq
        rw [if_neg fun hqk => hq (Fin.ext (hqk.trans hpk.symm))]
        exact update_of_ne hq _ _
      · intro q hq hqk
        exact absurd (Fin.ext (hqk.trans hpk.symm)) hq
    · next hne =>
      split at hs
      · cases hs
      · next hdoze =>
        cases hs
        refine h.advance hp rfl rfl (update_self _ _ _) ?_ ?_
        · intro q hq
          refine (update_of_ne hq _ _).trans ?_
          split
          · next hqk =>
            obtain rfl : q = ⟨k, hk⟩ := Fin.ext hqk
            exact update_self _ _ _
          · next hqk => exact update_of_ne (fun h => hqk (congrArg Fin.val h)) _ _
        · intro q _ hqk pc' hq
          obtain rfl : q = ⟨k, hk⟩ := Fin.ext hqk
          exact hdoze pc' hq
  · next hk =>
    cases hs
    have hheld : s.lock = some p := (h.lock p).mpr (by rw [hp]; rfl)
    refine h.move rfl (.inl ⟨rfl, by rw [hp]; rfl⟩) ?_ id nofun ?_
    · have hsame : update s.place p pc = s.place := by
        rw [update_eq_self_iff, State.place, hp]
        rfl
      exact hsame.symm ▸ h.data
    · rintro q ⟨j, pc', hj, hle⟩
      obtain ⟨rfl, -⟩ : k = j ∧ pc = pc' := by simpa using hp.symm.trans hj
      omega

theorem Ok.step (hP : P.Sound J ready) (h : Ok J ready s) {e : Event n α}
    (hs : step P s e = .ok s') : Ok J ready s' := by
  have hself : ∀ {p : Fin n} {m : Mode π}, m.place = s.place p →
      update s.place p m.place = s.place := by
    intro p m hm
    rw [hm, update_eq_self]
  cases e with
  | free p a =>
    simp only [Monitor.step] at hs
    split at hs
    · next pc hp =>
      split at hs
      · cases hs
      · next d pc' hfree =>
        cases hs
        have hplace : s.place p = pc := by rw [State.place, hp]; rfl
        rw [← hplace] at hfree
        obtain ⟨hJ, hready⟩ := hP.free h.data hfree
        exact h.move rfl (.inl ⟨rfl, by rw [hp]; rfl⟩) hJ hready nofun (not_wakes_of_mode hp nofun)
    · cases hs
  | enter p =>
    simp only [Monitor.step] at hs
    split at hs
    · next pc hp =>
      split at hs
      · exact h.acquire (by rw [State.place, hp]; rfl) (not_wakes_of_mode hp nofun) hs
      · cases hs
    · cases hs
  | act p =>
    simp only [Monitor.step] at hs
    split at hs
    · next pc hp =>
      obtain ⟨a, ha, hs'⟩ := Outcome.bind_eq_ok hs
      obtain rfl := Outcome.ok.inj hs'
      exact h.perform hP hp ha
    · cases hs
  | wake p =>
    simp only [Monitor.step] at hs
    split at hs
    · next k pc hp => exact h.wakeAt hp hs
    · cases hs
  | doze p =>
    simp only [Monitor.step] at hs
    split at hs
    · next pc hp =>
      cases hs
      refine h.move rfl (.inl ⟨rfl, by rw [hp]; rfl⟩) ?_ id (fun _ => .inl (by rw [hp]; rfl))
        (not_wakes_of_mode hp nofun)
      rw [hself (by rw [State.place, hp]; rfl)]
      exact h.data
    · cases hs
  | rouse p =>
    simp only [Monitor.step] at hs
    split at hs
    · next pc hp =>
      cases hs
      refine h.move rfl (.inl ⟨rfl, by rw [hp]; rfl⟩) ?_ id nofun (not_wakes_of_mode hp nofun)
      rw [hself (by rw [State.place, hp]; rfl)]
      exact h.data
    · cases hs
  | resume p =>
    simp only [Monitor.step] at hs
    split at hs
    · next pc hp => exact h.acquire (by rw [State.place, hp]; rfl) (not_wakes_of_mode hp nofun) hs
    · cases hs

/-- A sound program is in order in every reachable state. -/
theorem Program.Sound.ok (hP : P.Sound J ready) {d : σ} {start : π} (hJ : J d fun _ => start)
    (hs : (sys P d start).Reachable s) : Ok J ready s := by
  refine hs.invariant ?_ ?_
  · rintro _ rfl
    exact ⟨fun p => by simp [Mode.locked], hJ, fun q hq => by cases hq⟩
  · intro s e s' h hstep
    exact h.step hP hstep

end
end Monitor
