import Mathlib.Data.BitVec

/-! # Sleeping for a number of ticks

`sys_sleep` of `kernel/sysproc.c`, called by one process, and the counter of `clockintr`. The
process tests the condition of its loop when it calls `sys_sleep` and each time it is woken and runs
again.
-/

namespace Xv6.Trap.Sleep
set_option autoImplicit false

def clockintr (ticks : BitVec 32) : BitVec 32 := ticks + 1

/-- The loop from test number `j` on, which finds the counter at `ticks j`: when it returns and
what. The comparison is one of unsigned numbers. -/
def sleepLoop (n ticks0 : BitVec 32) (ticks : ℕ → BitVec 32) (killed : ℕ → Bool) :
    (fuel j : ℕ) → Option (ℕ × ℤ)
  | 0, _ => none
  | fuel + 1, j =>
    if ticks j - ticks0 < n then
      if killed j then some (j, -1) else sleepLoop n ticks0 ticks killed fuel (j + 1)
    else some (j, 0)

def sysSleep (n : BitVec 32) (ticks : ℕ → BitVec 32) (killed : ℕ → Bool) (fuel : ℕ) :
    Option (ℕ × ℤ) :=
  sleepLoop n (ticks 0) ticks killed fuel 0

/-- The ticks that have passed at each test, where `gap j` come between test `j` and the next. -/
def passed (gap : ℕ → ℕ) : ℕ → ℕ
  | 0 => 0
  | j + 1 => passed gap j + gap j

def clock (start : BitVec 32) (gap : ℕ → ℕ) (j : ℕ) : BitVec 32 := clockintr^[passed gap j] start

/-- Test `j` is the first one at which enough ticks have passed. -/
def Due (n : BitVec 32) (gap : ℕ → ℕ) (j : ℕ) : Prop :=
  max n.toInt 0 ≤ passed gap j ∧ ∀ i < j, passed gap i < max n.toInt 0

/-- A process that is not killed returns when it is due, and at no other test. -/
def OnTime (n start : BitVec 32) (gap : ℕ → ℕ) : Prop :=
  ∀ j, (∃ fuel, sysSleep n (clock start gap) (fun _ => false) fuel = some (j, 0)) ↔ Due n gap j

variable {n : BitVec 32} {j : ℕ}

theorem sleepLoop_eq_some {ticks0 : BitVec 32} {ticks : ℕ → BitVec 32} {fuel i : ℕ} :
    sleepLoop n ticks0 ticks (fun _ => false) fuel i = some (j, 0) ↔ i ≤ j ∧ j < i + fuel ∧
      ¬ ticks j - ticks0 < n ∧ ∀ k, i ≤ k → k < j → ticks k - ticks0 < n := by
  induction fuel generalizing i with
  | zero =>
    simp only [sleepLoop]
    constructor
    · intro h
      cases h
    · omega
  | succ fuel ih =>
    rw [sleepLoop]
    split
    · next hlt =>
      simp only [Bool.false_eq_true, if_false, ih]
      constructor
      · rintro ⟨hij, hj, hstop, hwait⟩
        refine ⟨by omega, by omega, hstop, ?_⟩
        intro k hk hkj
        by_cases hki : k = i
        · exact hki ▸ hlt
        · exact hwait k (by omega) hkj
      · rintro ⟨hij, hj, hstop, hwait⟩
        have hne : i ≠ j := fun h => hstop (h ▸ hlt)
        exact ⟨by omega, by omega, hstop, fun k hk => hwait k (by omega)⟩
    · next hge =>
      constructor
      · intro h
        obtain ⟨rfl, -⟩ := Prod.mk.inj (Option.some.inj h)
        exact ⟨le_refl _, by omega, hge, fun k hk hki => absurd hk (by omega)⟩
      · rintro ⟨hij, -, -, hwait⟩
        have heq : i = j := by
          by_contra hne
          exact hge (hwait i (le_refl _) (by omega))
        rw [heq]

theorem sysSleep_returns {ticks : ℕ → BitVec 32} :
    (∃ fuel, sysSleep n ticks (fun _ => false) fuel = some (j, 0)) ↔
      ¬ ticks j - ticks 0 < n ∧ ∀ i < j, ticks i - ticks 0 < n := by
  constructor
  · rintro ⟨fuel, h⟩
    obtain ⟨-, -, hstop, hwait⟩ := sleepLoop_eq_some.mp h
    exact ⟨hstop, fun i => hwait i (Nat.zero_le _)⟩
  · rintro ⟨hstop, hwait⟩
    exact ⟨j + 1, sleepLoop_eq_some.mpr ⟨Nat.zero_le _, by omega, hstop, fun i _ => hwait i⟩⟩

theorem clock_sub_lt {start : BitVec 32} {gap : ℕ → ℕ} :
    clock start gap j - clock start gap 0 < n ↔ passed gap j % 2 ^ 32 < n.toNat := by
  have hiter : ∀ k, clockintr^[k] start = start + BitVec.ofNat 32 k := by
    intro k
    induction k with
    | zero => simp
    | succ k ih =>
      rw [Function.iterate_succ_apply', ih, clockintr, BitVec.add_assoc, BitVec.ofNat_add]
      rfl
  rw [clock, clock, hiter, hiter, passed]
  simp [BitVec.lt_def, BitVec.add_comm start]

theorem due_iff (hn : 0 ≤ n.toInt) {gap : ℕ → ℕ} :
    Due n gap j ↔ n.toNat ≤ passed gap j ∧ ∀ i < j, passed gap i < n.toNat := by
  have heq : max n.toInt 0 = n.toNat := by
    rw [max_eq_left hn]
    exact BitVec.toInt_eq_toNat_of_lt (by rw [BitVec.toInt_eq_toNat_cond] at hn; omega)
  simp only [Due, heq, Int.ofNat_le, Int.ofNat_lt]

/-- `sys_sleep` waits for the right number of ticks exactly if its argument is not negative and the
process is not held up for so long, after it is due, that the counter has gone around. -/
theorem sleep_onTime_iff (n start : BitVec 32) (gap : ℕ → ℕ) :
    OnTime n start gap ↔ 0 ≤ n.toInt ∧ ∀ j, Due n gap j → n.toNat ≤ passed gap j % 2 ^ 32 := by
  simp only [OnTime, sysSleep_returns, clock_sub_lt, not_lt]
  by_cases hn : 0 ≤ n.toInt
  · simp only [hn, true_and, due_iff hn]
    constructor
    · exact fun h j hj => ((h j).mpr hj).1
    · intro h j
      constructor
      · rintro ⟨hstop, hwait⟩
        refine ⟨hstop.trans (Nat.mod_le _ _), ?_⟩
        -- the first test before `j` with enough ticks would be the one that is due
        by_contra hearly
        push Not at hearly
        have hfirst := Nat.find_spec hearly
        have hmin := fun i (hi : i < Nat.find hearly) => Nat.find_min hearly hi
        have := h _ ⟨hfirst.2, fun i hi => not_le.mp fun hle => hmin i hi ⟨hi.trans hfirst.1, hle⟩⟩
        exact absurd (hwait _ hfirst.1) (not_lt.mpr this)
      · intro hj
        exact ⟨h j hj, fun i hi => (Nat.mod_le _ _).trans_lt (hj.2 i hi)⟩
  · refine iff_of_false ?_ fun h => hn h.1
    intro h
    have hdue : Due n gap 0 := ⟨by simp [passed]; omega, fun i hi => absurd hi (Nat.not_lt_zero i)⟩
    have hzero : n = 0 := BitVec.eq_of_toNat_eq (Nat.le_zero.mp ((h 0).mpr hdue).1)
    exact hn (by rw [hzero]; decide)

/-- With the argument -1 the process is due at once, but it is still waiting after 100 ticks. -/
theorem sleep_minus_one_waits : Due (-1) (fun _ => 1) 0 ∧
    sysSleep (-1) (clock 0 fun _ => 1) (fun _ => false) 100 = none :=
  ⟨⟨by decide, fun i hi => absurd hi (Nat.not_lt_zero i)⟩, by decide +kernel⟩

end Xv6.Trap.Sleep
