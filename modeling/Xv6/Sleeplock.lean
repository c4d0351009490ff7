import Mathlib.Data.Fin.VecNotation
import Mathlib.Data.Fintype.Basic
import Xv6.Lib.Monitor

/-! # Sleep locks

`acquiresleep`, `releasesleep` and `holdingsleep` of `kernel/sleeplock.c` on one lock, called by any
number of processes. The code is a monitor: `lk->lk` is its spinlock, the address of the lock its
channel.
-/

namespace Xv6
set_option autoImplicit false
open Function (update update_self update_of_ne)

structure Sleeplock where
  locked : Bool
  pid : ℕ
  deriving DecidableEq

namespace Sleeplock

def initsleeplock : Sleeplock := ⟨false, 0⟩

/-- A pass of the loop of `acquiresleep`; `none` is the one that goes to sleep. -/
def acquiresleep (lk : Sleeplock) (pid : ℕ) : Option Sleeplock :=
  if lk.locked then none else some ⟨true, pid⟩

def releasesleep (_ : Sleeplock) : Sleeplock := ⟨false, 0⟩

def holdingsleep (lk : Sleeplock) (pid : ℕ) : Bool := lk.locked && lk.pid = pid

/-- The call a process is in; `woke` is the end of `releasesleep`. -/
inductive Pc where
  | idle
  | acquire
  | release
  | woke
  | holding
  deriving DecidableEq

/-- Where a process stands, and whether it is between `acquiresleep` and `releasesleep`. -/
structure Place where
  pc : Pc
  holds : Bool
  deriving DecidableEq

def call (c : Pc) (x : Place) : Option Place :=
  match x.pc, c with
  | .idle, .acquire => some { x with pc := .acquire }
  | .idle, .release => if x.holds then some { x with pc := .release } else none
  | .idle, .holding => some { x with pc := .holding }
  | _, _ => none

open Monitor (Act)

def act (pid : ℕ) (lk : Sleeplock) (x : Place) : Outcome Empty (Act Sleeplock Place) :=
  match x.pc with
  | .acquire =>
    match lk.acquiresleep pid with
    | none => .ok (.sleep x)
    | some lk => .ok (.leave lk ⟨.idle, true⟩)
  | .release => .ok (.wake lk.releasesleep ⟨.woke, false⟩)
  | .woke | .holding => .ok (.leave lk { x with pc := .idle })
  | .idle => .blocked

variable {n : ℕ} (pid : Fin n → ℕ)

def program : Monitor.Program n Sleeplock Place Pc Empty where
  enters x := x.pc ≠ .idle
  free c _ lk x := (call c x).map fun x => (lk, x)
  act p lk x := act (pid p) lk x

def sys : TransSys (Monitor.State n Sleeplock Place) (Monitor.Event n Pc) :=
  Monitor.sys (program pid) initsleeplock ⟨.idle, false⟩

/-! ## The invariant -/

/-- The lock records the process that holds it, and only a holder is about to release it. -/
structure Held (lk : Sleeplock) (pl : Fin n → Place) : Prop where
  iff : ∀ p, (pl p).holds = true ↔ lk.locked = true ∧ lk.pid = pid p
  release : ∀ p, (pl p).pc = .release → (pl p).holds = true

variable {pid} {lk : Sleeplock} {pl : Fin n → Place} {p : Fin n}

theorem Held.move (h : Held pid lk pl) {x : Place} (hx : x.holds = (pl p).holds)
    (hrel : x.pc = .release → x.holds = true) : Held pid lk (update pl p x) := by
  constructor
  · intro q
    by_cases hq : q = p
    · rw [hq, update_self, hx]
      exact h.iff p
    · rw [update_of_ne hq]
      exact h.iff q
  · intro q
    by_cases hq : q = p
    · rw [hq, update_self]
      exact hrel
    · rw [update_of_ne hq]
      exact h.release q

theorem Held.take (hpid : Function.Injective pid) (h : Held pid lk pl) (hfree : lk.locked = false) :
    Held pid ⟨true, pid p⟩ (update pl p ⟨.idle, true⟩) := by
  have hnone : ∀ q, (pl q).holds = false := by
    intro q
    rw [Bool.eq_false_iff, Ne, h.iff q, hfree]
    simp
  constructor
  · intro q
    by_cases hq : q = p
    · simp [hq]
    · have hne : pid p ≠ pid q := fun heq => hq (hpid heq).symm
      simp [hq, hnone q, hne]
  · intro q
    by_cases hq : q = p
    · simp [hq]
    · rw [update_of_ne hq]
      exact h.release q

theorem Held.give (hpid : Function.Injective pid) (h : Held pid lk pl)
    (hp : (pl p).holds = true) : Held pid lk.releasesleep (update pl p ⟨.woke, false⟩) := by
  have hother : ∀ q, q ≠ p → (pl q).holds = false := by
    intro q hq
    rw [Bool.eq_false_iff, Ne, h.iff q]
    rintro ⟨-, hpq⟩
    exact hq (hpid (hpq.symm.trans ((h.iff p).mp hp).2))
  constructor
  · intro q
    by_cases hq : q = p
    · simp [hq, releasesleep]
    · simp [hq, hother q hq, releasesleep]
  · intro q
    by_cases hq : q = p
    · simp [hq]
    · rw [update_of_ne hq]
      exact h.release q

theorem call_eq_some {c : Pc} {x y : Place} (h : call c x = some y) :
    y.holds = x.holds ∧ (y.pc = .release → y.holds = true) := by
  unfold call at h
  split at h
  · cases h
    exact ⟨rfl, nofun⟩
  · split at h
    · next hx =>
      cases h
      exact ⟨rfl, fun _ => hx⟩
    · cases h
  · cases h
    exact ⟨rfl, nofun⟩
  · cases h

theorem sound (hpid : Function.Injective pid) :
    (program pid).Sound (Held pid) fun lk => lk.locked = false := by
  constructor
  · intro c p lk pl lk' x h hfree
    obtain ⟨y, hy, hxy⟩ := Option.map_eq_some_iff.mp hfree
    obtain ⟨rfl, rfl⟩ := Prod.mk.inj hxy
    exact ⟨h.move (call_eq_some hy).1 (call_eq_some hy).2, id⟩
  · intro p lk pl a h hact
    simp only [program, act, acquiresleep] at hact
    cases hpc : (pl p).pc with
    | idle =>
      rw [hpc] at hact
      cases hact
    | acquire =>
      rw [hpc] at hact
      cases hlk : lk.locked with
      | true =>
        simp only [hlk, if_true] at hact
        cases hact
        exact ⟨h.move rfl (h.release p), by simp [hlk]⟩
      | false =>
        simp only [hlk, Bool.false_eq_true, if_false] at hact
        cases hact
        exact ⟨h.take hpid hlk, nofun⟩
    | release =>
      rw [hpc] at hact
      cases hact
      exact h.give hpid (h.release p hpc)
    | woke | holding =>
      rw [hpc] at hact
      cases hact
      exact ⟨h.move rfl nofun, id⟩

/-- At most one process holds the lock, `holdingsleep` tells which one, and no process is asleep on
a free lock. -/
theorem exclusive_and_awake (hpid : Function.Injective pid)
    {s : Monitor.State n Sleeplock Place} (hs : (sys pid).Reachable s) :
    (∀ p q, (s.place p).holds = true → (s.place q).holds = true → p = q) ∧
    (∀ p, s.data.holdingsleep (pid p) = true ↔ (s.place p).holds = true) ∧
    (s.lock = none → ∀ q x, s.mode q = .sleeping x → s.data.locked = true) := by
  have hstart : Held pid initsleeplock fun _ => ⟨.idle, false⟩ := by
    constructor
    · intro p
      simp [initsleeplock]
    · intro p hp
      cases hp
  have hok := (sound hpid).ok hstart hs
  refine ⟨?_, ?_, ?_⟩
  · intro p q hp hq
    have hp' := (hok.data.iff p).mp hp
    have hq' := (hok.data.iff q).mp hq
    exact hpid (hp'.2.symm.trans hq'.2)
  · intro p
    rw [hok.data.iff p]
    simp [holdingsleep]
  · intro hfree q x hq
    have hready := hok.not_ready_of_free hfree hq
    simpa using hready

def contend : List (Monitor.Event 2 Pc) :=
  [.free 0 .acquire, .enter 0, .act 0, .free 1 .acquire, .enter 1, .act 1, .doze 1]

theorem exclusive_and_awake_contend : ∃ s : Monitor.State 2 Sleeplock Place,
    (sys ![1, 2]).Reachable s ∧ s.lock = none ∧ s.mode 1 = .sleeping ⟨.acquire, false⟩ ∧
    s.data.locked = true ∧ s.data.holdingsleep 1 = true ∧ s.data.holdingsleep 2 = false := by
  have hpid : Function.Injective (![1, 2] : Fin 2 → ℕ) := by decide
  have hrun : ((TransSys.exec (fun s e => (Monitor.step (program ![1, 2]) s e).result)
      ⟨initsleeplock, none, fun _ => .out ⟨.idle, false⟩⟩ contend).map fun s =>
        (s.lock, s.mode 1, (s.place 0).holds, (s.place 1).holds)) =
      some (none, .sleeping ⟨.acquire, false⟩, true, false) := by decide
  obtain ⟨s, hs, h⟩ := Option.map_eq_some_iff.mp hrun
  simp only [Prod.mk.injEq] at h
  obtain ⟨hlock, hsleeps, h0, h1⟩ := h
  have hreach : (sys ![1, 2]).Reachable s :=
    (TransSys.Reachable.init rfl).run (.of_exec (fun _ _ _ => Outcome.result_eq_some.mp) hs)
  obtain ⟨-, hholding, hawake⟩ := exclusive_and_awake hpid hreach
  refine ⟨s, hreach, hlock, hsleeps, hawake hlock 1 _ hsleeps, (hholding 0).mpr h0, ?_⟩
  rw [Bool.eq_false_iff]
  intro hheld
  exact absurd ((hholding 1).mp hheld) (by simp [h1])

end Sleeplock
end Xv6
