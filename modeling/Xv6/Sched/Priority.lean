import Xv6.Sched.Step

/-! # Dynamic and static priorities

`get_dynamic_priority` mixes `int`, `uint` and `uint64`: the quotient of the sleeping time is taken
before it is multiplied by ten, the sum of the two times wraps, and a negative difference becomes
a huge unsigned number. `set_static_priority` returns inside its loop, so that only the first slot
of the table is ever looked at.
-/

namespace Xv6.Sched
set_option autoImplicit false

/-! ## `get_dynamic_priority` -/

/-- The niceness the formula is about, over the integers: ten times the share of its time that the
process has slept, rounded down. -/
def meantNiceness (x : Proc) : ℤ :=
  if x.rtime = 0 then 5 else (10 * x.stime.toNat / (x.rtime.toNat + x.stime.toNat) : ℕ)

def meantPriority (x : Proc) : ℤ :=
  max 0 (min (x.staticPriority - meantNiceness x + 5) 100)

/-- `get_dynamic_priority` divides by a non-zero number and returns the priority of the formula. -/
structure PriorityExact (x : Proc) : Prop where
  divisor : x.rtime ≠ 0 → x.rtime + x.stime ≠ 0
  value : ((getDynamicPriority x).toNat : ℤ) = meantPriority x

/-- The inputs on which the unsigned arithmetic agrees with the formula. -/
def PriorityFits (x : Proc) : Prop :=
  let prio := x.staticPriority
  let r := x.rtime.toNat
  let t := x.stime.toNat
  let n : ℤ := (10 * t / (r + t) : ℕ)
  -- what is left of the sum after it has wrapped, and ten times the quotient by it
  let w : ℤ := (10 * (t / (r + t - 2 ^ 32)) % 2 ^ 32 : ℕ)
  (r = 0 ∧ 0 ≤ prio) ∨
  (0 < r ∧ r + t < 2 ^ 32 ∧ -5 ≤ prio ∧ (9 * t < r ∨ prio = -5 ∨ 95 + n ≤ prio)) ∨
  (2 ^ 32 < r + t ∧
    (w ≤ prio + 5 ∧ (w = n ∨ (95 + w ≤ prio ∧ 95 + n ≤ prio) ∨ (prio + 5 = w ∧ w ≤ n)) ∨
      prio + 5 < w ∧ 95 + n ≤ prio))

instance (x : Proc) : Decidable (PriorityFits x) :=
  inferInstanceAs (Decidable (_ ∨ _ ∨ _))

variable {x : Proc} {priority : ℤ} {m : Mem}

theorem getDynamicPriority_toNat (hlo : -2 ^ 31 ≤ x.staticPriority)
    (hhi : x.staticPriority < 2 ^ 31) (hn : (niceness x).toNat < 2 ^ 32) :
    ((getDynamicPriority x).toNat : ℤ) =
      if x.staticPriority + 5 < (niceness x).toNat then 100
      else min (x.staticPriority + 5 - (niceness x).toNat) 100 := by
  have hof : (UInt64.ofInt x.staticPriority).toNat = (x.staticPriority % 2 ^ 64).toNat := by
    rw [UInt64.ofInt, UInt64.toNat_ofNat']
    omega
  have hval : (getDynamicPriority x).toNat = min (((2 ^ 64 - (niceness x).toNat +
      (x.staticPriority % 2 ^ 64).toNat) % 2 ^ 64 + 5) % 2 ^ 64) 100 := by
    rw [getDynamicPriority, UInt64.toNat_max, UInt64.toNat_min, UInt64.toNat_add, UInt64.toNat_sub,
      hof]
    exact Nat.zero_max _
  rw [hval]
  split <;> omega

theorem niceness_of_rtime_zero (hr : x.rtime.toNat = 0) : (niceness x).toNat = 5 := by
  have hz : x.rtime = 0 := UInt32.toNat_inj.mp hr
  rw [niceness, if_pos hz]
  rfl

theorem niceness_toNat (hr : x.rtime.toNat ≠ 0) : (niceness x).toNat =
      x.stime.toNat / ((x.rtime.toNat + x.stime.toNat) % 2 ^ 32) * 10 % 2 ^ 32 := by
  have hz : x.rtime ≠ 0 := fun h => hr (congrArg UInt32.toNat h)
  rw [niceness, if_neg hz, UInt32.toNat_toUInt64, UInt32.toNat_mul, UInt32.toNat_div,
    UInt32.toNat_add]
  rfl

theorem meantNiceness_of_rtime (hr : x.rtime.toNat ≠ 0) :
    meantNiceness x = (10 * x.stime.toNat / (x.rtime.toNat + x.stime.toNat) : ℕ) :=
  if_neg fun h => hr (congrArg UInt32.toNat h)

theorem share_le (r t : ℕ) (hr : 0 < r) : 10 * t / (r + t) ≤ 9 := by
  have : 10 * t / (r + t) < 10 := Nat.div_lt_of_lt_mul (by omega)
  omega

theorem share_eq_zero_iff (r t : ℕ) (hr : 0 < r) : 10 * t / (r + t) = 0 ↔ 9 * t < r := by
  rw [Nat.div_eq_zero_iff]
  omega

theorem divisor_ne_zero_iff (x : Proc) :
    x.rtime + x.stime ≠ 0 ↔ (x.rtime.toNat + x.stime.toNat) % 2 ^ 32 ≠ 0 := by
  rw [not_iff_not, ← UInt32.toNat_inj, UInt32.toNat_add]
  rfl

theorem clamp_eq_iff (prio n w : ℤ) :
    (if prio + 5 < w then 100 else min (prio + 5 - w) 100) = max 0 (min (prio - n + 5) 100) ↔
      (w ≤ prio + 5 ∧ (w = n ∨ (95 + w ≤ prio ∧ 95 + n ≤ prio) ∨ (prio + 5 = w ∧ w ≤ n)) ∨
        prio + 5 < w ∧ 95 + n ≤ prio) := by
  constructor
  · intro h
    split at h <;> omega
  · intro h
    split <;> omega

theorem clamp_zero_iff (prio : ℤ) (n : ℕ) :
    ((0 : ℕ) : ℤ) ≤ prio + 5 ∧ (((0 : ℕ) : ℤ) = n ∨ (95 + ((0 : ℕ) : ℤ) ≤ prio ∧ 95 + n ≤ prio) ∨
        (prio + 5 = ((0 : ℕ) : ℤ) ∧ ((0 : ℕ) : ℤ) ≤ n)) ∨
      prio + 5 < ((0 : ℕ) : ℤ) ∧ 95 + n ≤ prio ↔
    -5 ≤ prio ∧ (n = 0 ∨ prio = -5 ∨ 95 + n ≤ prio) := by
  constructor <;> intro h <;> omega

section
variable (hlo : -2 ^ 31 ≤ x.staticPriority) (hhi : x.staticPriority < 2 ^ 31)
include hlo hhi

theorem priorityExact_iff (hr : 0 < x.rtime.toNat) {n N : ℕ}
    (hn : 10 * x.stime.toNat / (x.rtime.toNat + x.stime.toNat) = n)
    (hN : x.stime.toNat / ((x.rtime.toNat + x.stime.toNat) % 2 ^ 32) * 10 % 2 ^ 32 = N) :
    PriorityExact x ↔ (x.rtime.toNat + x.stime.toNat) % 2 ^ 32 ≠ 0 ∧
      ((N : ℤ) ≤ x.staticPriority + 5 ∧ ((N : ℤ) = n ∨
          (95 + N ≤ x.staticPriority ∧ 95 + n ≤ x.staticPriority) ∨
          (x.staticPriority + 5 = N ∧ (N : ℤ) ≤ n)) ∨
        x.staticPriority + 5 < N ∧ 95 + n ≤ x.staticPriority) := by
  have hr' : x.rtime.toNat ≠ 0 := by omega
  have hz : x.rtime ≠ 0 := fun h => hr' (congrArg UInt32.toNat h)
  have hnice : (niceness x).toNat = N := (niceness_toNat hr').trans hN
  have hlt : (niceness x).toNat < 2 ^ 32 := by
    rw [hnice, ← hN]
    exact Nat.mod_lt _ (by norm_num)
  have hval := getDynamicPriority_toNat hlo hhi hlt
  have hmeant : meantPriority x = max 0 (min (x.staticPriority - n + 5) 100) := by
    rw [meantPriority, meantNiceness_of_rtime hr', hn]
  rw [hnice] at hval
  rw [← clamp_eq_iff, ← hval, ← hmeant]
  constructor
  · rintro ⟨hd, hv⟩
    exact ⟨(divisor_ne_zero_iff x).mp (hd hz), hv⟩
  · rintro ⟨hd, hv⟩
    exact ⟨fun _ => (divisor_ne_zero_iff x).mpr hd, hv⟩

theorem priorityExact_of_rtime_zero (hr : x.rtime.toNat = 0) :
    PriorityExact x ↔ 0 ≤ x.staticPriority := by
  have hz : x.rtime = 0 := UInt32.toNat_inj.mp hr
  have hnice := niceness_of_rtime_zero hr
  have hval := getDynamicPriority_toNat hlo hhi (by rw [hnice]; decide)
  have hmeant : meantPriority x = max 0 (min (x.staticPriority - (5 : ℕ) + 5) 100) := by
    rw [meantPriority, meantNiceness, if_pos hz]
    rfl
  rw [hnice] at hval
  constructor
  · rintro ⟨-, hv⟩
    rw [hval, hmeant, clamp_eq_iff] at hv
    omega
  · intro hprio
    refine ⟨fun h => absurd hz h, ?_⟩
    rw [hval, hmeant, clamp_eq_iff]
    omega

theorem priorityExact_iff_fits : PriorityExact x ↔ PriorityFits x := by
  have hrlt := x.rtime.toNat_lt
  have htlt := x.stime.toNat_lt
  simp only [PriorityFits]
  rcases Nat.eq_zero_or_pos x.rtime.toNat with hr | hr
  · rw [priorityExact_of_rtime_zero hlo hhi hr]
    constructor
    · intro hprio
      exact .inl ⟨hr, hprio⟩
    · rintro (⟨-, hprio⟩ | ⟨hpos, -⟩ | ⟨hs, -⟩)
      · exact hprio
      · omega
      · omega
  have hzero := share_eq_zero_iff x.rtime.toNat x.stime.toNat hr
  generalize hn : 10 * x.stime.toNat / (x.rtime.toNat + x.stime.toNat) = n at *
  rcases Nat.lt_trichotomy (x.rtime.toNat + x.stime.toNat) (2 ^ 32) with hs | hs | hs
  · -- the quotient is zero before it is multiplied by ten
    have hquot : x.stime.toNat / (x.rtime.toNat + x.stime.toNat) = 0 :=
      Nat.div_eq_of_lt (by omega)
    have hN : x.stime.toNat / ((x.rtime.toNat + x.stime.toNat) % 2 ^ 32) * 10 % 2 ^ 32 = 0 := by
      rw [Nat.mod_eq_of_lt hs, hquot]
      rfl
    rw [priorityExact_iff hlo hhi hr hn hN, Nat.mod_eq_of_lt hs, clamp_zero_iff, ← hzero]
    constructor
    · rintro ⟨-, hfit⟩
      exact .inr (.inl ⟨hr, hs, hfit⟩)
    · rintro (⟨hr0, -⟩ | ⟨-, -, hfit⟩ | ⟨hs', -⟩)
      · omega
      · exact ⟨by omega, hfit⟩
      · omega
  · -- the divisor is zero
    rw [priorityExact_iff hlo hhi hr hn rfl, hs]
    constructor
    · rintro ⟨hd, -⟩
      exact absurd (Nat.mod_self _) hd
    · rintro (⟨hr0, -⟩ | ⟨-, hs', -⟩ | ⟨hs', -⟩) <;> omega
  · have hsub : (x.rtime.toNat + x.stime.toNat) % 2 ^ 32 =
        x.rtime.toNat + x.stime.toNat - 2 ^ 32 := by
      omega
    rw [priorityExact_iff hlo hhi hr hn rfl, hsub, Nat.mul_comm]
    constructor
    · rintro ⟨-, hfit⟩
      exact .inr (.inr ⟨hs, hfit⟩)
    · rintro (⟨hr0, -⟩ | ⟨-, hs', -⟩ | ⟨-, hfit⟩)
      · omega
      · omega
      · exact ⟨by omega, hfit⟩

end

theorem share_mono {r t t' : ℕ} (hr : 0 < r) (ht : t ≤ t') :
    10 * t / (r + t) ≤ 10 * t' / (r + t') := by
  have hq := share_le r t hr
  have hmul : 10 * t / (r + t) * (r + t) ≤ 10 * t := Nat.div_mul_le_self _ _
  rw [Nat.le_div_iff_mul_le (by omega)]
  generalize 10 * t / (r + t) = q at *
  obtain ⟨d, rfl⟩ := Nat.exists_eq_add_of_le ht
  have hd : q * d ≤ 9 * d := Nat.mul_le_mul_right d hq
  calc q * (r + (t + d)) = q * (r + t) + q * d := by ring
    _ ≤ 10 * t + 9 * d := Nat.add_le_add hmul hd
    _ ≤ 10 * (t + d) := by omega

theorem meantPriority_stime_le {t : UInt32} (hr : x.rtime ≠ 0) (ht : x.stime ≤ t) :
    meantPriority { x with stime := t } ≤ meantPriority x := by
  have hpos : 0 < x.rtime.toNat := by
    rw [Nat.pos_iff_ne_zero]
    exact fun h => hr (UInt32.toNat_inj.mp h)
  have hshare := share_mono hpos (UInt32.le_iff_toNat_le.mp ht)
  simp only [meantPriority, meantNiceness, if_neg hr]
  omega

/-- `get_dynamic_priority` computes the formula exactly on the inputs that fit; over them, it never
increases with `stime` once the process has run. -/
theorem dynamic_priority_exact_iff (x : Proc) (hlo : -2 ^ 31 ≤ x.staticPriority)
    (hhi : x.staticPriority < 2 ^ 31) :
    (PriorityExact x ↔ PriorityFits x) ∧
    ∀ t, x.rtime ≠ 0 → x.stime ≤ t → PriorityFits x → PriorityFits { x with stime := t } →
      getDynamicPriority { x with stime := t } ≤ getDynamicPriority x := by
  refine ⟨priorityExact_iff_fits hlo hhi, ?_⟩
  intro t hr ht hx hx'
  have hval := ((priorityExact_iff_fits hlo hhi).mpr hx).value
  have hval' := ((priorityExact_iff_fits (x := { x with stime := t }) hlo hhi).mpr hx').value
  have hle := meantPriority_stime_le hr ht
  rw [UInt64.le_iff_toNat_le]
  omega

def ranTen : Proc := { Proc.zero with staticPriority := 60, rtime := 10, stime := 1 }

theorem dynamic_priority_exact_iff_ranTen : PriorityFits ranTen ∧ PriorityExact ranTen := by
  have hfit : PriorityFits ranTen := by decide
  exact ⟨hfit, (dynamic_priority_exact_iff ranTen (by decide) (by decide)).1.mpr hfit⟩

/-- A process that has run for one tick and slept for nine should have niceness 9 and priority 56;
it gets niceness 0 and priority 65. -/
theorem dynamic_priority_slept_nine :
    getDynamicPriority { Proc.zero with staticPriority := 60, rtime := 1, stime := 9 } = 65 ∧
    meantPriority { Proc.zero with staticPriority := 60, rtime := 1, stime := 9 } = 56 := by
  decide

/-! ## `set_static_priority` -/

/-- What `set_static_priority` returns, whether it has called `yield`, and the table it leaves. -/
structure PrioritySet where
  old : ℤ
  yields : Bool
  mem : Mem

/-- The loop of `set_static_priority`. Its body ends in a `return`, so that `p++` is never reached.
-/
def setStaticPriorityLoop (caller : Slot) (priority : ℤ) (pid : ℕ) (m : Mem) (old : ℤ) :
    List Slot → PrioritySet
  | [] => ⟨0, false, m⟩
  | p :: _ =>
    let (old, m) :=
      if caller ≠ p then
        ((m.proc p).staticPriority, if (m.proc p).pid = pid then changePriority priority p m else m)
      else if (m.proc p).pid = pid then ((m.proc p).staticPriority, changePriority priority p m)
      else (old, m)
    ⟨old, decide (priority < old), m⟩

def setStaticPriority (caller : Slot) (priority : ℤ) (pid : ℕ) (m : Mem) : PrioritySet :=
  setStaticPriorityLoop caller priority pid m 0 (List.finRange NPROC)

def Mem.Named (m : Mem) (pid : ℕ) (q : Slot) : Prop :=
  (m.proc q).state ≠ .unused ∧ (m.proc q).pid = pid

instance (m : Mem) (pid : ℕ) (q : Slot) : Decidable (m.Named pid q) :=
  inferInstanceAs (Decidable (_ ∧ _))

/-- The call has changed the priority of the named process and nothing else. -/
structure PrioritySet.UpdatesNamed (r : PrioritySet) (priority : ℤ) (pid : ℕ) (m : Mem) : Prop where
  found : (∃ q, m.Named pid q) → ∃ q, m.Named pid q ∧
    r.mem.proc = (changePriority priority q m).proc ∧ r.old = (m.proc q).staticPriority ∧
    (r.yields = true ↔ priority < (m.proc q).staticPriority)
  none : (¬ ∃ q, m.Named pid q) → r.mem.proc = m.proc ∧ r.old = 0

/-- The write of the new priority would change nothing. -/
def Proc.HasPriority (x : Proc) (priority : ℤ) : Prop :=
  x.staticPriority = priority ∧ x.niceness = 5 ∧ x.rtime = 0 ∧ x.stime = 0

instance (x : Proc) (priority : ℤ) : Decidable (x.HasPriority priority) :=
  inferInstanceAs (Decidable (_ ∧ _))

def firstValue (caller : Slot) (pid : ℕ) (m : Mem) : ℤ :=
  if caller = initproc ∧ (m.proc initproc).pid ≠ pid then 0 else (m.proc initproc).staticPriority

/-- The first slot is the named process. Or there is nothing to change, neither in the first slot
if it has the pid nor in a named process, and what the first slot makes the call return is the
right value. -/
def FirstNamed (caller : Slot) (priority : ℤ) (pid : ℕ) (m : Mem) : Prop :=
  m.Named pid initproc ∨
  (((m.proc initproc).pid = pid → (m.proc initproc).HasPriority priority) ∧
    ((∃ q, m.Named pid q ∧ (m.proc q).HasPriority priority) ∧ firstValue caller pid m = priority ∨
      (¬ ∃ q, m.Named pid q) ∧ firstValue caller pid m = 0))

theorem setStaticPriority_eq (caller : Slot) (priority : ℤ) (pid : ℕ) (m : Mem) :
    setStaticPriority caller priority pid m =
      ⟨firstValue caller pid m, decide (priority < firstValue caller pid m),
        if (m.proc initproc).pid = pid then changePriority priority initproc m else m⟩ := by
  have hfirst : List.finRange NPROC = initproc :: (List.finRange 63).map Fin.succ :=
    List.finRange_succ
  rw [setStaticPriority, hfirst, setStaticPriorityLoop, firstValue]
  by_cases hc : caller = initproc <;> by_cases hp : (m.proc initproc).pid = pid <;>
    simp [hc, hp]

theorem changePriority_eq_self {q : Slot} :
    (changePriority priority q m).proc = m.proc ↔ (m.proc q).HasPriority priority := by
  rw [changePriority, Mem.set, Function.update_eq_self_iff, Proc.HasPriority]
  cases m.proc q
  simp only [Proc.mk.injEq]
  tauto

theorem changePriority_congr {q r : Slot} (hne : q ≠ r)
    (h : (changePriority priority q m).proc = (changePriority priority r m).proc) :
    (m.proc q).HasPriority priority ∧ (m.proc r).HasPriority priority := by
  constructor
  · rw [← changePriority_eq_self]
    funext i
    by_cases hi : i = q
    · rw [h, hi]
      exact Mem.set_proc_of_ne _ _ hne
    · exact Mem.set_proc_of_ne _ _ hi
  · rw [← changePriority_eq_self]
    funext i
    by_cases hi : i = r
    · rw [← h, hi]
      exact Mem.set_proc_of_ne _ _ hne.symm
    · exact Mem.set_proc_of_ne _ _ hi

theorem first_unchanged_iff {pid : ℕ} :
    (if (m.proc initproc).pid = pid then changePriority priority initproc m else m).proc = m.proc ↔
      ((m.proc initproc).pid = pid → (m.proc initproc).HasPriority priority) := by
  split
  · next hp => rw [changePriority_eq_self, imp_iff_right hp]
  · next hp => simp [hp]

/-- The call updates exactly the named process just when that is the first slot of the table, or
when there is nothing to update. -/
theorem set_static_priority_updates_iff (caller : Slot) (priority : ℤ) (pid : ℕ) (m : Mem) :
    (setStaticPriority caller priority pid m).UpdatesNamed priority pid m ↔
      FirstNamed caller priority pid m := by
  rw [setStaticPriority_eq, FirstNamed]
  by_cases hz : m.Named pid initproc
  · refine iff_of_true ⟨?_, fun hn => absurd ⟨initproc, hz⟩ hn⟩ (.inl hz)
    intro _
    have hvalue : firstValue caller pid m = (m.proc initproc).staticPriority :=
      if_neg fun h => h.2 hz.2
    refine ⟨initproc, hz, ?_, hvalue, ?_⟩
    · rw [if_pos hz.2]
    · rw [hvalue, decide_eq_true_iff]
  rw [or_iff_right hz, ← first_unchanged_iff]
  generalize hmem : (if (m.proc initproc).pid = pid then changePriority priority initproc m else m)
    = mem
  constructor
  · intro h
    by_cases hn : ∃ q, m.Named pid q
    · obtain ⟨q, hq, hproc, hold, -⟩ := h.found hn
      have hne : initproc ≠ q := by
        rintro rfl
        exact hz hq
      have hboth : mem.proc = m.proc ∧ (m.proc q).HasPriority priority := by
        rw [← hmem] at hproc ⊢
        split at hproc
        · next hp =>
          obtain ⟨hfirst, hqp⟩ := changePriority_congr hne hproc
          rw [if_pos hp]
          exact ⟨changePriority_eq_self.mpr hfirst, hqp⟩
        · next hp =>
          rw [if_neg hp]
          exact ⟨rfl, changePriority_eq_self.mp hproc.symm⟩
      exact ⟨hboth.1, .inl ⟨⟨q, hq, hboth.2⟩, hold.trans hboth.2.1⟩⟩
    · exact ⟨(h.none hn).1, .inr ⟨hn, (h.none hn).2⟩⟩
  · rintro ⟨hkeep, ⟨⟨q, hq, hqp⟩, hvalue⟩ | ⟨hn, hvalue⟩⟩
    · refine ⟨fun _ => ⟨q, hq, ?_, ?_, ?_⟩, fun hn => absurd ⟨q, hq⟩ hn⟩
      · exact hkeep.trans (changePriority_eq_self.mpr hqp).symm
      · exact hvalue.trans hqp.1.symm
      · rw [hvalue, hqp.1, decide_eq_true_iff]
    · exact ⟨fun h => absurd h hn, fun _ => ⟨hkeep, hvalue⟩⟩

def twoProcs : Mem :=
  bootMem.set ⟨1, one_lt_NPROC⟩ fun x =>
    { x with state := .running, pid := 2, staticPriority := 60 }

/-- `set_priority(50, 2)` called by the shell itself: its priority stays 60. -/
theorem set_static_priority_second_slot :
    twoProcs.Named 2 ⟨1, by decide⟩ ∧
    ((setStaticPriority ⟨1, by decide⟩ 50 2 twoProcs).mem.proc ⟨1, by decide⟩).staticPriority = 60 ∧
    ¬ (setStaticPriority ⟨1, by decide⟩ 50 2 twoProcs).UpdatesNamed 50 2 twoProcs := by
  refine ⟨by decide, by decide, ?_⟩
  intro h
  obtain ⟨q, hq, hproc, -⟩ := h.found ⟨⟨1, by decide⟩, by decide⟩
  have hone : ∀ q, twoProcs.Named 2 q → q = ⟨1, by decide⟩ := by decide
  obtain rfl := hone q hq
  have hprio := congrArg (fun f => (f ⟨1, by decide⟩).staticPriority) hproc
  revert hprio
  decide

end Xv6.Sched
