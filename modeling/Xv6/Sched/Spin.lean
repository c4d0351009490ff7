import Xv6.Sched.State

/-! # Spinlocks

`push_off`, `pop_off`, `acquire` and `release` of `kernel/spinlock.c`. An `acquire` of a lock that
another hart holds is a blocked step; the hart spins until the lock is free. `critical` is the
pattern `acquire(lk); ...; release(lk)` around a change of the shared data.
-/

namespace Xv6.Sched
set_option autoImplicit false
open Function (update update_eq_self update_idem)

def pushOff (c : Cpu) : Cpu :=
  { c with
    intr := false
    intena := if c.noff = 0 then c.intr else c.intena
    noff := c.noff + 1 }

def popOff (c : Cpu) : Outcome Failure Cpu :=
  if c.intr then .fail (.panic "pop_off - interruptible")
  else if c.noff < 1 then .fail (.panic "pop_off")
  else .ok { c with noff := c.noff - 1, intr := decide (c.noff - 1 = 0) && c.intena }

section
variable {H : Type} [DecidableEq H]

@[simps]
def State.setCpu (s : State H) (h : H) (c : Cpu) : State H :=
  { s with cpu := update s.cpu h c }

@[simps]
def State.setLock (s : State H) (l : LockId) (o : Option H) : State H :=
  { s with locks := update s.locks l o }

def acquire (h : H) (l : LockId) (s : State H) : Outcome Failure (State H) :=
  let s := s.setCpu h (pushOff (s.cpu h))
  if s.locks l = some h then .fail (.panic "acquire")
  else if s.locks l ≠ none then .blocked
  else .ok (s.setLock l (some h))

def release (h : H) (l : LockId) (s : State H) : Outcome Failure (State H) :=
  if s.locks l ≠ some h then .fail (.panic "release")
  else do
    let s := s.setLock l none
    let c ← popOff (s.cpu h)
    pure (s.setCpu h c)

def critical (h : H) (l : LockId) (f : Mem → Mem) (s : State H) : Outcome Failure (State H) := do
  let s ← acquire h l s
  release h l { s with mem := f s.mem }

end

/-! ## What a hart's `struct cpu` looks like with `n` locks held -/

/-- `c->proc` is `p`, `n` locks are held, and with a lock held interrupts are off. -/
structure Cpu.At (c : Cpu) (p : Option Slot) (n : ℕ) : Prop where
  proc : c.proc = p
  noff : c.noff = n
  intr : 0 < n → c.intr = false

theorem Cpu.At.pushOff {c : Cpu} {p : Option Slot} {n : ℕ} (hc : c.At p n) :
    (pushOff c).At p (n + 1) :=
  ⟨hc.proc, by simp [Sched.pushOff, hc.noff], fun _ => rfl⟩

theorem Cpu.At.popOff {c : Cpu} {p : Option Slot} {n : ℕ} (hc : c.At p (n + 1)) :
    ∃ c', popOff c = .ok c' ∧ c'.At p n := by
  have hi : c.intr = false := hc.intr (Nat.succ_pos n)
  have hn : c.noff = n + 1 := hc.noff
  refine ⟨{ c with noff := n, intr := decide (n = 0) && c.intena }, ?_, hc.proc, rfl, ?_⟩
  · simp [Sched.popOff, hi, hn]
  · intro hpos
    simp [Nat.pos_iff_ne_zero.mp hpos]

section Specs
variable {H : Type} [DecidableEq H] {E : Failure → Prop} {Q : State H → Prop}
variable {s : State H} {h : H} {l : LockId} {p : Option Slot} {n : ℕ}

theorem acquire_ok (hfree : s.locks l = none) :
    acquire h l s = .ok ((s.setCpu h (pushOff (s.cpu h))).setLock l (some h)) := by
  simp [acquire, hfree]

theorem release_ok (hc : (s.cpu h).At p (n + 1)) (hl : s.locks l = some h) :
    ∃ c, release h l s = .ok ((s.setLock l none).setCpu h c) ∧ c.At p n := by
  obtain ⟨c, hpop, hc'⟩ := hc.popOff
  refine ⟨c, ?_, hc'⟩
  rw [release, if_neg (not_not.mpr hl)]
  show popOff (s.cpu h) >>= _ = _
  rw [hpop]
  rfl

theorem critical_ok {f : Mem → Mem} (hc : (s.cpu h).At p n) (hfree : s.locks l = none) :
    ∃ c, critical h l f s = .ok { s.setCpu h c with mem := f s.mem } ∧ c.At p n := by
  let t := { (s.setCpu h (pushOff (s.cpu h))).setLock l (some h) with mem := f s.mem }
  have hct : (t.cpu h).At p (n + 1) := by simpa [t] using hc.pushOff
  obtain ⟨c, hrel, hc'⟩ := release_ok hct (show t.locks l = some h by simp [t])
  have hlocks : update (update s.locks l (some h)) l none = s.locks := by
    rw [update_idem, ← hfree, update_eq_self]
  refine ⟨c, ?_, hc'⟩
  rw [critical, acquire_ok hfree]
  show release h l t = _
  rw [hrel]
  simp [t, State.setLock, State.setCpu, hlocks]

theorem acquire_ensures (hc : (s.cpu h).At p n) (hl : s.locks l ≠ some h)
    (hQ : s.locks l = none → ∀ c, c.At p (n + 1) → Q ((s.setCpu h c).setLock l (some h))) :
    (acquire h l s).Ensures E Q := by
  rw [acquire]
  split
  · next heq => exact absurd heq hl
  · split
    · trivial
    · next hfree => exact hQ (not_not.mp hfree) _ hc.pushOff

theorem release_ensures (hc : (s.cpu h).At p (n + 1)) (hl : s.locks l = some h)
    (hQ : ∀ c, c.At p n → Q ((s.setLock l none).setCpu h c)) :
    (release h l s).Ensures E Q := by
  obtain ⟨c, hok, hc'⟩ := release_ok hc hl
  rw [hok]
  exact hQ c hc'

theorem critical_ensures {f : Mem → Mem} (hc : (s.cpu h).At p n) (hl : s.locks l ≠ some h)
    (hQ : s.locks l = none → ∀ c, c.At p n → Q { s.setCpu h c with mem := f s.mem }) :
    (critical h l f s).Ensures E Q := by
  refine Outcome.ensures_bind (acquire_ensures hc hl ?_)
  intro hfree c hc'
  refine release_ensures (by simpa [State.setLock, State.setCpu] using hc')
    (by simp [State.setLock]) ?_
  intro c' hc''
  have hlocks : update (update s.locks l (some h)) l none = s.locks := by
    rw [update_idem, ← hfree, update_eq_self]
  simpa [State.setLock, State.setCpu, hlocks] using hQ hfree c' hc''

end Specs

/-! ## Locking changes nothing but the locks and `struct cpu` -/

section Frame
variable {H : Type} [DecidableEq H] {Q : State H → Prop} {s : State H} {h : H} {l : LockId}

theorem acquire_frame (hQ : ∀ L C, Q { s with locks := L, cpu := C }) :
    (acquire h l s).Ensures (fun _ => True) Q := by
  rw [acquire]
  split
  · trivial
  · split
    · trivial
    · exact hQ _ _

theorem release_frame (hQ : ∀ L C, Q { s with locks := L, cpu := C }) :
    (release h l s).Ensures (fun _ => True) Q := by
  rw [release]
  split
  · trivial
  · refine Outcome.ensures_bind ?_
    cases popOff ((s.setLock l none).cpu h) with
    | blocked => trivial
    | fail e => trivial
    | ok c => exact hQ _ _

theorem critical_frame {f : Mem → Mem}
    (hQ : ∀ L C, Q { s with locks := L, cpu := C, mem := f s.mem }) :
    (critical h l f s).Ensures (fun _ => True) Q := by
  refine Outcome.ensures_bind (acquire_frame ?_)
  intro L C
  exact release_frame hQ

end Frame
end Xv6.Sched
