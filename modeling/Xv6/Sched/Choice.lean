import Mathlib.Order.Fin.Basic
import Xv6.Lib.StaleMin
import Xv6.Sched.Moves
import Xv6.Sched.SchedulerInv

/-! # The choices of PBS and FCFS

One pass of the PBS loop keeps the best process so far in `minproc` and its dynamic priority in
`min_priority`, but sets `min_priority` only for the first `RUNNABLE` process it meets: the pass is
a running minimum with a stale bound. The FCFS loop switches inside its scan, to the process it is
looking at or to the one that an earlier iteration left in `p_least_time`.
-/

namespace Xv6.Sched
set_option autoImplicit false

/-! ## PBS: what a pass over the table computes -/

def tieRank (x : Proc) : ℤ ×ₗ ℕ := toLex (x.schedCt, x.ctime.toNat)

/-- The triple `(get_dynamic_priority, sched_ct, ctime)`, ordered lexicographically. -/
def pbsRank (x : Proc) : ℕ ×ₗ ℤ ×ₗ ℕ := toLex ((getDynamicPriority x).toNat, tieRank x)

def pbsTake (m : Mem) (a : Option Slot × UInt64) (p : Slot) : Option Slot × UInt64 :=
  if isRunnable p m then
    match a.1 with
    | none => (some p, getDynamicPriority (m.proc p))
    | some q =>
      if pbsReplaces (m.proc q) (m.proc p) (getDynamicPriority (m.proc p)) a.2 then (some p, a.2)
      else a
  else a

def pbsPass (m : Mem) : Option Slot := ((List.finRange NPROC).foldl (pbsTake m) (none, 0)).1

def runnableSlots (m : Mem) : List Slot := (List.finRange NPROC).filter fun p => isRunnable p m

theorem mem_runnableSlots {m : Mem} {p : Slot} :
    p ∈ runnableSlots m ↔ (m.proc p).state = .runnable := by
  simp [runnableSlots, isRunnable]

theorem runnableSlots_pairwise (m : Mem) : (runnableSlots m).Pairwise (· < ·) :=
  (List.pairwise_lt_finRange NPROC).filter _

theorem pbsReplaces_iff {x y : Proc} {dp prio : UInt64} :
    pbsReplaces x y dp prio = true ↔
      dp.toNat < prio.toNat ∨ dp.toNat = prio.toNat ∧ tieRank y < tieRank x := by
  rw [tieRank, tieRank, Prod.Lex.toLex_lt_toLex, ← UInt64.lt_iff_toNat_lt,
    ← UInt32.lt_iff_toNat_lt, UInt64.toNat_inj, pbsReplaces]
  by_cases hdp : dp = prio
  · have hlt : ¬ dp < prio := by simp [hdp]
    rw [if_pos hdp, or_iff_right hlt, and_iff_right hdp]
    by_cases hct : x.schedCt = y.schedCt
    · by_cases htime : y.ctime < x.ctime <;> simp [hct, htime]
    · have hne : y.schedCt ≠ x.schedCt := Ne.symm hct
      simp [hct, hne]
  · rw [if_neg hdp, or_iff_left fun h => hdp h.1]
    by_cases hle : prio ≤ dp
    · simp [hle, UInt64.not_lt.mpr hle]
    · simp [hle, UInt64.not_le.mp hle]

section Pass
variable {m : Mem} {q : Slot}

def Mem.dp (m : Mem) (p : Slot) : ℕ := (getDynamicPriority (m.proc p)).toNat

def Mem.tie (m : Mem) (p : Slot) : ℤ ×ₗ ℕ := tieRank (m.proc p)

theorem pbsTake_foldl (q : Slot) (prio : UInt64) (l : List Slot)
    (hl : ∀ p ∈ l, (m.proc p).state = .runnable) :
    l.foldl (pbsTake m) (some q, prio) =
      (some (StaleMin.best m.dp m.tie prio.toNat q l), prio) := by
  induction l generalizing q with
  | nil => rfl
  | cons p l ih =>
    have hp : isRunnable p m = true := decide_eq_true (hl p List.mem_cons_self)
    have htake : pbsTake m (some q, prio) p =
        (some (if StaleMin.Beats m.dp m.tie prio.toNat q p then p else q), prio) := by
      simp only [pbsTake, if_pos hp, pbsReplaces_iff]
      by_cases hbeats : StaleMin.Beats m.dp m.tie prio.toNat q p
      · rw [if_pos hbeats]
        exact if_pos hbeats
      · rw [if_neg hbeats]
        exact if_neg hbeats
    rw [List.foldl_cons, htake, ih _ fun r hr => hl r (List.mem_cons_of_mem p hr)]
    rfl

theorem pbsPass_eq (m : Mem) : pbsPass m =
    match runnableSlots m with
    | [] => none
    | q :: l => some (StaleMin.best m.dp m.tie (m.dp q) q l) := by
  have hfilter : (List.finRange NPROC).foldl (pbsTake m) (none, 0) =
      (runnableSlots m).foldl (pbsTake m) (none, 0) := by
    rw [runnableSlots, List.foldl_filter]
    congr 1
    funext a p
    by_cases hp : isRunnable p m = true
    · rw [if_pos hp]
    · rw [if_neg hp, pbsTake, if_neg hp]
  have hrun : ∀ p ∈ runnableSlots m, (m.proc p).state = .runnable :=
    fun p => mem_runnableSlots.mp
  rw [pbsPass, hfilter]
  cases hl : runnableSlots m with
  | nil => rfl
  | cons q l =>
    rw [hl] at hrun
    have hq : isRunnable q m = true := decide_eq_true (hrun q List.mem_cons_self)
    have htake : pbsTake m (none, 0) q = (some q, getDynamicPriority (m.proc q)) := by
      simp only [pbsTake, if_pos hq]
    rw [List.foldl_cons, htake, pbsTake_foldl q _ l fun p hp => hrun p (List.mem_cons_of_mem q hp)]
    rfl

/-- A selection is best: nothing is selected only if nothing is `RUNNABLE`, and a selected process
is `RUNNABLE` and of least rank. -/
def PbsBest (m : Mem) : Option Slot → Prop
  | none => ∀ p, (m.proc p).state ≠ .runnable
  | some p => (m.proc p).state = .runnable ∧
      ∀ q, (m.proc q).state = .runnable → pbsRank (m.proc p) ≤ pbsRank (m.proc q)

/-- No `RUNNABLE` process has a lower dynamic priority than the first one of the table. Or the last
one that has is of least rank, and no later process of the first one's dynamic priority comes
before it by `sched_ct` and `ctime`. -/
def FirstBounds (m : Mem) (first : Slot) : Prop :=
  (∀ q, (m.proc q).state = .runnable → m.dp first ≤ m.dp q) ∨
  ∃ f, (m.proc f).state = .runnable ∧ m.dp f < m.dp first ∧
    (∀ q, (m.proc q).state = .runnable → pbsRank (m.proc f) ≤ pbsRank (m.proc q)) ∧
    ∀ q, f < q → (m.proc q).state = .runnable →
      m.dp first ≤ m.dp q ∧ (m.dp q = m.dp first → m.tie f ≤ m.tie q)

def FirstRunnable (m : Mem) (p : Slot) : Prop :=
  (m.proc p).state = .runnable ∧ ∀ q, q < p → (m.proc q).state ≠ .runnable

theorem not_beats_iff {d : ℕ} {f : Slot} :
    ¬ StaleMin.Beats m.dp m.tie d f q ↔ d ≤ m.dp q ∧ (m.dp q = d → m.tie f ≤ m.tie q) := by
  rw [StaleMin.Beats, not_or, not_lt, not_and, not_lt]

theorem runnableSlots_cons {l : List Slot} (h : runnableSlots m = q :: l) :
    FirstRunnable m q ∧ (∀ p, (m.proc p).state = .runnable ↔ p = q ∨ p ∈ l) := by
  have hmem : ∀ p, (m.proc p).state = .runnable ↔ p = q ∨ p ∈ l := by
    intro p
    rw [← mem_runnableSlots, h, List.mem_cons]
  refine ⟨⟨(hmem q).mpr (.inl rfl), ?_⟩, hmem⟩
  intro p hp hrun
  have hsorted := runnableSlots_pairwise m
  rw [h, List.pairwise_cons] at hsorted
  rcases (hmem p).mp hrun with rfl | hl
  · exact lt_irrefl p hp
  · exact lt_asymm hp (hsorted.1 p hl)

theorem mem_after_iff {f p : Slot} {l1 l2 : List Slot}
    (h : runnableSlots m = q :: (l1 ++ f :: l2)) :
    p ∈ l2 ↔ f < p ∧ (m.proc p).state = .runnable := by
  have hsorted := runnableSlots_pairwise m
  rw [← mem_runnableSlots, h]
  rw [h, List.pairwise_cons, List.pairwise_append, List.pairwise_cons] at hsorted
  obtain ⟨hq, -, ⟨hf, -⟩, hcross⟩ := hsorted
  constructor
  · intro hp
    exact ⟨hf p hp, by simp [hp]⟩
  · rintro ⟨hfp, hp⟩
    simp only [List.mem_cons, List.mem_append] at hp
    rcases hp with rfl | hp | rfl | hp
    · exact absurd hfp (lt_asymm (hq f (by simp)))
    · exact absurd hfp (lt_asymm (hcross p hp f List.mem_cons_self))
    · exact absurd hfp (lt_irrefl p)
    · exact hp

theorem firstBounds_iff {l : List Slot} (h : runnableSlots m = q :: l) :
    FirstBounds m q ↔ (∀ p ∈ l, m.dp q ≤ m.dp p) ∨ ∃ l1 f l2, l = l1 ++ f :: l2 ∧ m.dp f < m.dp q ∧
      (∀ p ∈ q :: l, StaleMin.rank m.dp m.tie f ≤ StaleMin.rank m.dp m.tie p) ∧
      ∀ p ∈ l2, ¬ StaleMin.Beats m.dp m.tie (m.dp q) f p := by
  obtain ⟨-, hmem⟩ := runnableSlots_cons h
  constructor
  · rintro (hall | ⟨f, hf, hfq, hle, hlast⟩)
    · exact .inl fun p hp => hall p ((hmem p).mpr (.inr hp))
    · have hne : f ≠ q := by
        rintro rfl
        exact lt_irrefl _ hfq
      obtain ⟨l1, l2, rfl⟩ := List.append_of_mem (((hmem f).mp hf).resolve_left hne)
      refine .inr ⟨l1, f, l2, rfl, hfq, ?_, ?_⟩
      · intro p hp
        exact hle p ((hmem p).mpr (List.mem_cons.mp hp))
      · intro p hp
        obtain ⟨hfp, hrun⟩ := (mem_after_iff h).mp hp
        exact not_beats_iff.mpr (hlast p hfp hrun)
  · rintro (hall | ⟨l1, f, l2, rfl, hfq, hle, hlast⟩)
    · left
      intro p hp
      rcases (hmem p).mp hp with rfl | hl
      · exact le_rfl
      · exact hall p hl
    · refine .inr ⟨f, (hmem f).mpr (.inr (by simp)), hfq, ?_, ?_⟩
      · intro p hp
        exact hle p (List.mem_cons.mpr ((hmem p).mp hp))
      · intro p hfp hp
        exact not_beats_iff.mp (hlast p ((mem_after_iff h).mpr ⟨hfp, hp⟩))

theorem pbsPass_best_iff (m : Mem) :
    PbsBest m (pbsPass m) ↔ ∀ p, FirstRunnable m p → FirstBounds m p := by
  rw [pbsPass_eq]
  cases hl : runnableSlots m with
  | nil =>
    have hnone : ∀ p, (m.proc p).state ≠ .runnable := by
      intro p hp
      have hmem := mem_runnableSlots.mpr hp
      rw [hl] at hmem
      cases hmem
    exact iff_of_true hnone fun p hp => absurd hp.1 (hnone p)
  | cons q l =>
    obtain ⟨hq, hmem⟩ := runnableSlots_cons hl
    have hfirst : ∀ p, FirstRunnable m p → p = q := by
      intro p hp
      rcases lt_trichotomy p q with hlt | heq | hlt
      · exact absurd hp.1 (hq.2 p hlt)
      · exact heq
      · exact absurd hq.1 (hp.2 q hlt)
    have hbest : PbsBest m (some (StaleMin.best m.dp m.tie (m.dp q) q l)) ↔ ∀ p ∈ q :: l,
        StaleMin.rank m.dp m.tie (StaleMin.best m.dp m.tie (m.dp q) q l) ≤
          StaleMin.rank m.dp m.tie p := by
      obtain ⟨l1, l2, hsplit, -⟩ := StaleMin.exists_split (k := m.tie) (b := m.dp q) q l
      constructor
      · intro h p hp
        exact h.2 p ((hmem p).mpr (List.mem_cons.mp hp))
      · intro h
        refine ⟨(hmem _).mpr (List.mem_cons.mp ?_), ?_⟩
        · rw [hsplit]
          exact List.mem_append_right _ List.mem_cons_self
        · intro p hp
          exact h p (List.mem_cons.mpr ((hmem p).mp hp))
    refine hbest.trans ((StaleMin.best_le_iff q l).trans ((firstBounds_iff hl).symm.trans ?_))
    constructor
    · intro h p hp
      rw [hfirst p hp]
      exact h
    · intro h
      exact h q hq

end Pass

/-! ## PBS: the pass of a hart -/

section Run
variable {H : Type} [DecidableEq H] {s : State H} {h : H}

/-- Hart `h` is about to start a pass, and no process is locked. -/
structure PassStart (s : State H) (h : H) : Prop where
  run : s.run h = none
  spc : s.spc h = .loop (.pbs 0 none 0)
  free : ∀ q, s.locks (.proc q) = none
  cpu : (s.cpu h).At none 0

/-- The pass of `h` over the table `m` has come to `proc[i]`, with `a` in its variables. Of the
table it has written only `niceness`, and it holds the lock of `minproc` alone. -/
structure PassAt (m : Mem) (h : H) (i : ℕ) (a : Option Slot × UInt64) (s : State H) : Prop where
  run : s.run h = none
  spc : s.spc h = .loop (.pbs i a.1 a.2)
  locks : ∀ q, s.locks (.proc q) = if a.1 = some q then some h else none
  cpu : (s.cpu h).At none (if a.1.isSome then 1 else 0)
  table : ∀ q, ∃ n, s.mem.proc q = { m.proc q with niceness := n }
  seen : ∀ q, a.1 = some q → q.val < i

omit [DecidableEq H] in
theorem PassStart.passAt (hs : PassStart s h) : PassAt s.mem h 0 (none, 0) s where
  run := hs.run
  spc := hs.spc
  locks := fun q => by simp [hs.free q]
  cpu := hs.cpu
  table := fun q => ⟨(s.mem.proc q).niceness, rfl⟩
  seen := fun q hq => by simp at hq

variable {m : Mem} {i : ℕ} {a a' : Option Slot × UInt64} {p : Slot}

/-- The lock of `minproc` and the lock of `p` are held while the body of the scan looks at `p`. -/
structure LookAt (m : Mem) (h : H) (p : Slot) (a : Option Slot × UInt64) (s : State H) : Prop where
  run : s.run h = none
  locks : ∀ q, s.locks (.proc q) = if a.1 = some q ∨ q = p then some h else none
  cpu : (s.cpu h).At none ((if a.1.isSome then 1 else 0) + 1)
  table : ∀ q, ∃ n, s.mem.proc q = { m.proc q with niceness := n }
  seen : ∀ q, a.1 = some q → q.val < p.val

theorem PassAt.acquire (hs : PassAt m h p.val a s) :
    ∃ t, Sched.acquire h (.proc p) s = .ok t ∧ t.mem = s.mem ∧ LookAt m h p a t := by
  have hne : a.1 ≠ some p := fun hp => lt_irrefl _ (hs.seen p hp)
  have hfree : s.locks (.proc p) = none := by rw [hs.locks, if_neg hne]
  refine ⟨_, acquire_ok hfree, rfl, hs.run, ?_, ?_, hs.table, hs.seen⟩
  · intro q
    by_cases hq : q = p
    · simp [hq]
    · have hlock : LockId.proc q ≠ .proc p := by simp [hq]
      simp [hq, hlock, hs.locks q]
  · simpa using hs.cpu.pushOff

omit [DecidableEq H] in
theorem LookAt.setNiceness (hs : LookAt m h p a s) :
    LookAt m h p a
      (s.setMem fun k => k.set p fun x => { x with niceness := (niceness x).toNat }) where
  run := hs.run
  locks := hs.locks
  cpu := hs.cpu
  table := by
    intro q
    obtain ⟨n, hn⟩ := hs.table q
    by_cases hq : q = p
    · subst hq
      exact ⟨(niceness (s.mem.proc q)).toNat, by simp [hn]⟩
    · exact ⟨n, by simp [hq, hn]⟩
  seen := hs.seen

theorem LookAt.skip (hs : LookAt m h p a s) : ∃ t, (release h (.proc p) s >>= fun t =>
        (pure (t.goSched h (.loop (.pbs (p.val + 1) a.1 a.2))) : Outcome Failure (State H)))
          = .ok t ∧
      PassAt m h (p.val + 1) a t := by
  have hheld : s.locks (.proc p) = some h := by rw [hs.locks, if_pos (.inr rfl)]
  obtain ⟨c, hok, hc⟩ := release_ok hs.cpu hheld
  rw [hok]
  refine ⟨_, rfl, hs.run, by simp, ?_, by simpa using hc, hs.table, ?_⟩
  · intro q
    by_cases hq : q = p
    · have hne : a.1 ≠ some p := fun hp => lt_irrefl _ (hs.seen p hp)
      simp [hq, hne]
    · have hlock : LockId.proc q ≠ .proc p := by simp [hq]
      simp [hlock, hs.locks q, hq]
  · intro q hq
    exact (hs.seen q hq).trans (Nat.lt_succ_self _)

theorem LookAt.replace {q : Slot} {prio : UInt64} (hs : LookAt m h p (some q, prio) s) :
    ∃ t, (release h (.proc q) s >>= fun t =>
        (pure (t.goSched h (.loop (.pbs (p.val + 1) (some p) prio))) : Outcome Failure (State H)))
          = .ok t ∧
      PassAt m h (p.val + 1) (some p, prio) t := by
  have hheld : s.locks (.proc q) = some h := by rw [hs.locks, if_pos (.inl rfl)]
  have hqp : q ≠ p := by
    rintro rfl
    exact lt_irrefl _ (hs.seen q rfl)
  obtain ⟨c, hok, hc⟩ := release_ok hs.cpu hheld
  rw [hok]
  refine ⟨_, rfl, hs.run, by simp, ?_, by simpa using hc, hs.table, ?_⟩
  · intro r
    by_cases hr : r = q
    · simp [hr, hqp.symm]
    · have hlock : LockId.proc r ≠ .proc q := by simp [hr]
      have hr' : q ≠ r := fun h => hr h.symm
      simp [hlock, hs.locks r, hr', eq_comm]
  · rintro r ⟨⟩
    exact Nat.lt_succ_self _

theorem LookAt.first {dp prio : UInt64} (hs : LookAt m h p (none, prio) s) :
    PassAt m h (p.val + 1) (some p, dp) (s.goSched h (.loop (.pbs (p.val + 1) (some p) dp))) where
  run := hs.run
  spc := by simp
  locks := fun q => by simp [hs.locks q, eq_comm]
  cpu := by simpa using hs.cpu
  table := hs.table
  seen := by
    rintro q ⟨⟩
    exact Nat.lt_succ_self _

theorem pbsLook_passAt (hs : PassAt m h p.val a s) :
    ∃ t, pbsLook h p.val p a.1 a.2 s = .ok t ∧ PassAt m h (p.val + 1) (pbsTake m a p) t := by
  obtain ⟨s1, hacq, hmem, hs1⟩ := hs.acquire
  obtain ⟨n, hn⟩ := hs1.table p
  rw [pbsLook, hacq]
  show ∃ t, (if (s1.mem.proc p).state ≠ .runnable then _ else _) = Outcome.ok t ∧ _
  by_cases hrun : (m.proc p).state = .runnable
  · have hp : isRunnable p m = true := decide_eq_true hrun
    have hs2 := hs1.setNiceness
    have hdp : getDynamicPriority (s1.mem.proc p) = getDynamicPriority (m.proc p) := by
      rw [hn]
      rfl
    rw [if_neg (by simp [hn, hrun]), pbsTake, if_pos hp]
    generalize hs₂eq :
      (s1.setMem fun k => k.set p fun x => { x with niceness := (niceness x).toNat }) = s2 at *
    obtain ⟨_ | q, prio⟩ := a
    · rw [← hdp]
      exact ⟨_, rfl, hs2.first⟩
    · -- the comparison reads nothing that the pass has written
      obtain ⟨k, hk⟩ := hs2.table q
      obtain ⟨j, hj⟩ := hs2.table p
      have hcmp :
          pbsReplaces (s2.mem.proc q) (s2.mem.proc p) (getDynamicPriority (s1.mem.proc p)) prio =
            pbsReplaces (m.proc q) (m.proc p) (getDynamicPriority (m.proc p)) prio := by
        rw [hk, hj, hdp]
        rfl
      dsimp only
      rw [hcmp]
      cases pbsReplaces (m.proc q) (m.proc p) (getDynamicPriority (m.proc p)) prio with
      | true => exact hs2.replace
      | false => exact hs2.skip
  · have hp : isRunnable p m ≠ true := by simp [isRunnable, hrun]
    rw [if_pos (by simp [hn, hrun]), pbsTake, if_neg hp]
    exact hs1.skip

theorem pbs_passAt (hs : PassAt m h 0 (none, 0) s) (r : UInt32) (n : ℕ) (hn : n ≤ NPROC) :
    ∃ t, (sys .pbs H).Run s (List.replicate n (.sched h r)) t ∧
      PassAt m h n (((List.finRange NPROC).take n).foldl (pbsTake m) (none, 0)) t := by
  induction n with
  | zero => exact ⟨s, .nil s, hs⟩
  | succ n ih =>
    have hlt : n < NPROC := hn
    have hlen : n < (List.finRange NPROC).length := by rwa [List.length_finRange]
    obtain ⟨t, hrun, ht⟩ := ih hlt.le
    obtain ⟨u, hlook, hu⟩ := pbsLook_passAt (p := ⟨n, hlt⟩) ht
    have hstep : step .pbs t (.sched h r) = .ok u := by
      simp only [step, if_pos ht.run, schedStep, ht.spc, locStep, pbsStep, dif_pos hlt]
      exact hlook
    have htake : (List.finRange NPROC).take (n + 1) =
        (List.finRange NPROC).take n ++ [⟨n, hlt⟩] := by
      rw [List.take_add_one, List.getElem?_eq_getElem hlen, List.getElem_finRange]
      rfl
    refine ⟨u, ?_, ?_⟩
    · rw [List.replicate_succ']
      exact hrun.snoc hstep
    · rw [htake, List.foldl_append]
      exact hu

def SchedPc.selected : SchedPc → Option Slot
  | swtch p _ => some p
  | loop _ | ret _ _ => none

/-- An undisturbed pass ends, and selects what the scan of the table computes. -/
theorem pbs_pass_run (hs : PassStart s h) (r : UInt32) :
    ∃ t, (sys .pbs H).Run s (List.replicate (NPROC + 1) (.sched h r)) t ∧
      (t.spc h).selected = pbsPass s.mem := by
  obtain ⟨t, hrun, ht⟩ := pbs_passAt hs.passAt r NPROC le_rfl
  rw [List.take_of_length_le (by simp)] at ht
  have hstep : step .pbs t (.sched h r) =
      .ok (pbsEnd h t ((List.finRange NPROC).foldl (pbsTake s.mem) (none, 0)).1) := by
    simp only [step, if_pos ht.run, schedStep, ht.spc, locStep, pbsStep,
      dif_neg (lt_irrefl NPROC)]
    rfl
  refine ⟨pbsEnd h t ((List.finRange NPROC).foldl (pbsTake s.mem) (none, 0)).1, ?_, ?_⟩
  · rw [List.replicate_succ']
    exact hrun.snoc hstep
  · rw [pbsPass]
    cases ((List.finRange NPROC).foldl (pbsTake s.mem) (none, 0)).1 with
    | none => simp [pbsEnd, again, SchedPc.selected]
    | some p => simp [pbsEnd, dispatch, SchedPc.selected]

/-- A pass selects a `RUNNABLE` process of least rank just when the bound it takes from the first
`RUNNABLE` process does not mislead it. -/
theorem pbs_pass_best_iff (s : State H) (h : H) (r : UInt32) (hs : PassStart s h) :
    ∃ t, (sys .pbs H).Run s (List.replicate (NPROC + 1) (.sched h r)) t ∧
      (PbsBest s.mem (t.spc h).selected ↔ ∀ p, FirstRunnable s.mem p → FirstBounds s.mem p) := by
  obtain ⟨t, hrun, hsel⟩ := pbs_pass_run hs r
  refine ⟨t, hrun, ?_⟩
  rw [hsel]
  exact pbsPass_best_iff s.mem

end Run

def passOver (m : Mem) : State Unit := { boot .pbs Unit with mem := m }

theorem passOver_start (m : Mem) : PassStart (passOver m) () where
  run := rfl
  spc := rfl
  free := fun _ => rfl
  cpu := ⟨rfl, rfl, fun h => absurd h (lt_irrefl 0)⟩

/-- Three `RUNNABLE` processes that have not run yet, with these static priorities. -/
def threeWaiting (a b c : ℤ) : Mem where
  proc := fun p =>
    if p.val = 0 then { Proc.zero with state := .runnable, pid := 1, staticPriority := a }
    else if p.val = 1 then { Proc.zero with state := .runnable, pid := 2, staticPriority := b }
    else if p.val = 2 then { Proc.zero with state := .runnable, pid := 3, staticPriority := c }
    else Proc.zero
  nextpid := 4
  ticks := 0
  queue := ⟨fun _ _ => none, fun _ => 0, fun _ => 0⟩

/-- The lowest value comes last, and is selected. -/
theorem pbs_pass_best_iff_lastLowest : ∃ t, (sys .pbs Unit).Run (passOver (threeWaiting 60 55 50))
    (List.replicate (NPROC + 1) (.sched () 0)) t ∧
    PbsBest (threeWaiting 60 55 50) (t.spc ()).selected := by
  obtain ⟨t, hrun, hiff⟩ := pbs_pass_best_iff (passOver (threeWaiting 60 55 50)) () 0
    (passOver_start (threeWaiting 60 55 50))
  refine ⟨t, hrun, hiff.mpr ?_⟩
  intro p hp
  have hzero : p = initproc := by
    by_contra hne
    have hready : ((threeWaiting 60 55 50).proc initproc).state = .runnable := rfl
    exact hp.2 initproc (Nat.pos_of_ne_zero fun h => hne (Fin.ext h)) hready
  subst hzero
  refine .inr ⟨⟨2, by decide⟩, rfl, ?_, ?_, ?_⟩ <;> decide +kernel

/-- The third process is selected, although the second one has a lower priority value. -/
theorem pbs_pass_threeWaiting : ∃ t, (sys .pbs Unit).Run (passOver (threeWaiting 60 50 55))
    (List.replicate (NPROC + 1) (.sched () 0)) t ∧ (t.spc ()).selected = some ⟨2, by decide⟩ ∧
    ¬ PbsBest (threeWaiting 60 50 55) (t.spc ()).selected := by
  obtain ⟨t, hrun, hsel⟩ := pbs_pass_run (passOver_start (threeWaiting 60 50 55)) 0
  have hpass : pbsPass (threeWaiting 60 50 55) = some ⟨2, by decide⟩ := by decide +kernel
  have hsel' : (t.spc ()).selected = some ⟨2, by decide⟩ := hsel.trans hpass
  refine ⟨t, hrun, hsel', ?_⟩
  rw [hsel']
  rintro ⟨-, hle⟩
  have h1 := hle ⟨1, by decide⟩ (by decide)
  revert h1
  decide

/-! ## FCFS: what a pass over the table computes -/

/-- `p` is among the oldest `RUNNABLE` processes. -/
def Mem.Oldest (m : Mem) (p : Slot) : Prop :=
  ∀ q, (m.proc q).state = .runnable → (m.proc p).ctime ≤ (m.proc q).ctime

/-- `p_least_time`, `flag` and `min_ticks` after the looks at the first `n` slots of `m`, if `least`
was in `p_least_time` at the start of the pass. -/
def fcfsScan (m : Mem) (least : Slot) : ℕ → Slot × Bool × UInt32
  | 0 => (least, false, -1)
  | n + 1 =>
    let a := fcfsScan m least n
    if h : n < NPROC then fcfsLook ⟨n, h⟩ (m.proc ⟨n, h⟩) a.1 a.2.1 a.2.2 else a

section Scan
variable {m : Mem} {least first : Slot}

theorem fcfsScan_succ (m : Mem) (least p : Slot) : fcfsScan m least (p.val + 1) =
    fcfsLook p (m.proc p) (fcfsScan m least p.val).1 (fcfsScan m least p.val).2.1
      (fcfsScan m least p.val).2.2 := by
  simp [fcfsScan]

theorem fcfsScan_before {n : ℕ} (hn : ∀ q : Slot, q.val < n → (m.proc q).state ≠ .runnable)
    (hle : n ≤ NPROC) : fcfsScan m least n = (least, false, -1) := by
  induction n with
  | zero => rfl
  | succ n ih =>
    have hlook := fcfsScan_succ m least ⟨n, hle⟩
    rw [ih (fun q hq => hn q (by omega)) (by omega)] at hlook
    rw [hlook, fcfsLook, if_neg (hn ⟨n, hle⟩ (by dsimp only; omega))]

theorem fcfsScan_first (hf : FirstRunnable m first) :
    fcfsScan m least (first.val + 1) = (first, true, (m.proc first).ctime) := by
  rw [fcfsScan_succ, fcfsScan_before (fun q hq => hf.2 q hq) first.isLt.le, fcfsLook, if_pos hf.1]
  simp

/-- Once the oldest process is found, no later look replaces it. -/
theorem fcfsScan_after (hf : FirstRunnable m first) (hold : m.Oldest first) {n : ℕ}
    (hn : first.val < n) (hle : n ≤ NPROC) :
    fcfsScan m least n = (first, true, (m.proc first).ctime) := by
  induction n, hn using Nat.le_induction with
  | base => exact fcfsScan_first hf
  | succ n hn ih =>
    have hlook := fcfsScan_succ m least ⟨n, hle⟩
    rw [ih (by omega)] at hlook
    rw [hlook, fcfsLook]
    by_cases hrun : (m.proc ⟨n, hle⟩).state = .runnable
    · have hge : ¬ (m.proc ⟨n, hle⟩).ctime < (m.proc first).ctime :=
        UInt32.not_lt.mpr (hold ⟨n, hle⟩ hrun)
      simp [hrun, hge]
    · rw [if_neg hrun]

/-- What the body of the loop for `proc[n]` tries to switch to. -/
def fcfsTried (m : Mem) (least : Slot) (n : ℕ) : Slot := (fcfsScan m least (n + 1)).1

/-- The first `RUNNABLE` process of the table is among the oldest ones; and so is what
`p_least_time` points to, if it is `RUNNABLE` and the scan tries it before it comes to that process.
-/
def FirstOldest (m : Mem) (least : Slot) : Prop :=
  ∀ first, FirstRunnable m first → m.Oldest first ∧
    (0 < first.val → (m.proc least).state = .runnable → m.Oldest least)

theorem exists_firstRunnable {p : Slot} (hp : (m.proc p).state = .runnable) :
    ∃ first, FirstRunnable m first := by
  cases hl : runnableSlots m with
  | nil =>
    have hmem := mem_runnableSlots.mpr hp
    rw [hl] at hmem
    cases hmem
  | cons q l => exact ⟨q, (runnableSlots_cons hl).1⟩

theorem fcfsTried_oldest_iff (m : Mem) (least : Slot) :
    (∀ n < NPROC, (m.proc (fcfsTried m least n)).state = .runnable →
      m.Oldest (fcfsTried m least n)) ↔ FirstOldest m least := by
  constructor
  · intro h first hf
    have htried : fcfsTried m least first.val = first := by rw [fcfsTried, fcfsScan_first hf]
    constructor
    · have hfirst := h first.val first.isLt
      rw [htried] at hfirst
      exact hfirst hf.1
    · intro hpos hrun
      have hzero : fcfsTried m least 0 = least := by
        rw [fcfsTried, fcfsScan_before (fun q hq => hf.2 q ?_) NPROC_pos]
        exact Fin.lt_def.mpr (by omega)
      have hleast := h 0 NPROC_pos
      rw [hzero] at hleast
      exact hleast hrun
  · intro h n hn hrun
    obtain ⟨first, hf⟩ := exists_firstRunnable hrun
    obtain ⟨hold, hleast⟩ := h first hf
    by_cases hlt : n < first.val
    · -- the scan has met nothing `RUNNABLE` yet, and tries what an earlier pass has left
      have htried : fcfsTried m least n = least := by
        rw [fcfsTried, fcfsScan_before (fun q hq => hf.2 q ?_) hn]
        exact Fin.lt_def.mpr (by omega)
      rw [htried] at hrun ⊢
      exact hleast (by omega) hrun
    · rw [fcfsTried, fcfsScan_after hf hold (by omega) hn]
      exact hold

end Scan

/-! ## FCFS: the passes of a hart -/

section Fcfs
variable {H : Type} [DecidableEq H] {s : State H}

theorem tryProc_selected {h : H} {p : Slot} {ready : Mem → Bool} {l : Loc} :
    (tryProc h p ready l s).Ensures (fun _ => True) fun t =>
      (t.spc h).selected = if ready s.mem then some p else none := by
  refine Outcome.ensures_bind (acquire_frame ?_)
  intro L C
  split
  · simp [dispatch, SchedPc.selected]
  · refine Outcome.ensures_bind (release_frame ?_)
    intro L C
    simp [SchedPc.selected]

theorem resumed_spc {h : H} {p : Slot} {l : Loc} :
    (do let s ← release h (.proc p) s
        pure (s.goSched h (.loop l)) : Outcome Failure (State H)).Ensures (fun _ => True)
      fun t => t.spc h = .loop l := by
  refine Outcome.ensures_bind (release_frame ?_)
  intro L C
  simp

theorem spc_of_not_sched {b : Build} {t : State H} {e : Event H} (he : ∀ h r, e ≠ .sched h r)
    (hs : step b s e = .ok t) : t.spc = s.spc := by
  cases (step_moves e).of_ok hs with
  | sched h r he' | enter h r _ _ he' => exact absurd he' (he h r)
  | leave _ _ _ _ _ _ _ _ _ hspc | thread _ _ _ _ _ _ _ _ hspc
  | fork _ _ _ _ _ _ _ _ _ _ _ hspc | handler _ _ _ hspc => exact hspc

theorem tryProc_loc {h : H} {p : Slot} {ready : Mem → Bool} {l : Loc} :
    (tryProc h p ready l s).Ensures (fun _ => True) fun t => (t.spc h).loc = l := by
  refine Outcome.ensures_bind (acquire_frame ?_)
  intro L C
  split
  · simp [dispatch, SchedPc.loc]
  · refine Outcome.ensures_bind (release_frame ?_)
    intro L C
    simp [SchedPc.loc]

end Fcfs

/-- The same processes are `RUNNABLE`, with the same `ctime`. -/
def Mem.SameReady (m m' : Mem) : Prop :=
  ∀ q, ((m'.proc q).state = .runnable ↔ (m.proc q).state = .runnable) ∧
    ((m.proc q).state = .runnable → (m'.proc q).ctime = (m.proc q).ctime)

instance (m m' : Mem) : Decidable (m.SameReady m') :=
  inferInstanceAs (Decidable (∀ _, _ ∧ _))

theorem Mem.SameReady.oldest_iff {m m' : Mem} (h : m.SameReady m') {p : Slot}
    (hp : (m.proc p).state = .runnable) : m'.Oldest p ↔ m.Oldest p := by
  constructor
  · intro hold q hq
    rw [← (h p).2 hp, ← (h q).2 hq]
    exact hold q ((h q).1.mpr hq)
  · intro hold q hq
    have hq' := (h q).1.mp hq
    rw [(h p).2 hp, (h q).2 hq']
    exact hold q hq'

/-- The scheduler has a slot left to look at, or to try. -/
def Loc.scanning : Loc → Bool
  | fcfs i _ _ _ | fcfsTry i _ _ _ => i < NPROC
  | _ => false

/-- Where in its loop the scheduler takes its next step, unless it is at a `swtch`. -/
def SchedPc.looping : SchedPc → Option Loc
  | loop l => some l
  | swtch _ _ | ret _ _ => none

/-- In the pass over `m`: the scheduler, wherever in its scan, finds the processes of `m`
`RUNNABLE`. The processes it switches to, and interrupts, may do anything in between. -/
def InPass (m : Mem) (s : State Unit) : Prop :=
  s.run () = none → ∀ l ∈ (s.spc ()).looping, l.scanning = true ∧ m.SameReady s.mem

instance (m : Mem) (s : State Unit) : Decidable (InPass m s) :=
  inferInstanceAs (Decidable (_ → ∀ _ ∈ _, _ ∧ _))

/-- What the scheduler decides to switch to in the step from `s` to `t`, with the table it has then.
-/
def switchOf (s t : State Unit) : List (Mem × Slot) :=
  if (s.spc ()).selected = none then (t.spc ()).selected.toList.map (Prod.mk s.mem) else []

/-- The switches along a run of the FCFS kernel. -/
def switches : State Unit → List (Event Unit) → List (Mem × Slot)
  | _, [] => []
  | s, e :: es => ((step .fcfs s e).result).elim [] fun t => switchOf s t ++ switches t es

/-- The pass over `m` is in the body of its loop for `proc[i]`, or has left the scan if there is no
such slot. -/
inductive FcfsAt (m : Mem) (least : Slot) (i : ℕ) (s : State Unit) : Prop
  | look (hl : (s.spc ()).loc = .fcfs i (fcfsScan m least i).1 (fcfsScan m least i).2.1
      (fcfsScan m least i).2.2)
  | attempt (hi : i < NPROC) (hl : s.spc () = .loop (.fcfsTry i (fcfsTried m least i)
      (fcfsScan m least (i + 1)).2.1 (fcfsScan m least (i + 1)).2.2))

section Pass
variable {m : Mem} {least : Slot} {i : ℕ} {s t : State Unit} {e : Event Unit}

theorem switchOf_of_spc (h : t.spc = s.spc) : switchOf s t = [] := by
  rw [switchOf, h]
  cases (s.spc ()).selected <;> simp

theorem Mem.SameReady.look {m' : Mem} (h : m.SameReady m') (p : Slot) (flag : Bool)
    (minTicks : UInt32) : fcfsLook p (m'.proc p) least flag minTicks =
      fcfsLook p (m.proc p) least flag minTicks := by
  obtain ⟨hstate, hctime⟩ := h p
  rw [fcfsLook, fcfsLook]
  by_cases hp : (m.proc p).state = .runnable
  · rw [if_pos hp, if_pos (hstate.mpr hp), hctime hp]
  · rw [if_neg hp, if_neg (fun hp' => hp (hstate.mp hp'))]

/-- What a step of a pass over `m` does to its position and which switches it adds: the body for
`proc[i]` goes on, or it makes its attempt to switch. -/
inductive PassStep (m : Mem) (least : Slot) (i : ℕ) (s t : State Unit) : Prop
  | stays (ht : FcfsAt m least i t) (hsw : switchOf s t = [])
  | tries (hi : i < NPROC) (ht : FcfsAt m least (i + 1) t) (hm : m.SameReady s.mem)
      (hsw : switchOf s t = if (m.proc (fcfsTried m least i)).state = .runnable
        then [(s.mem, fcfsTried m least i)] else [])

theorem fcfsStep_eq {flag : Bool} {minTicks : UInt32} (hi : i < NPROC) :
    let look := fcfsLook ⟨i, hi⟩ (s.mem.proc ⟨i, hi⟩) least flag minTicks
    fcfsStep () i least flag minTicks s =
      .ok (s.goSched () (.loop (.fcfsTry i look.1 look.2.1 look.2.2))) := by
  rw [fcfsStep, dif_pos hi]
  rfl

theorem look_passStep {flag : Bool} {minTicks : UInt32} {least' : Slot}
    (hs : (least', flag, minTicks) = fcfsScan m least i) (hi : i < NPROC) (hm : m.SameReady s.mem)
    (hspc : s.spc () = .loop (.fcfs i least' flag minTicks))
    (hstep : fcfsStep () i least' flag minTicks s = .ok t) : PassStep m least i s t := by
  have hscan := fcfsScan_succ m least ⟨i, hi⟩
  rw [← hs, ← hm.look] at hscan
  rw [fcfsStep_eq hi] at hstep
  cases hstep
  refine .stays (.attempt hi ?_) ?_
  · rw [fcfsTried, hscan, State.goSched_spc, Function.update_self]
  · simp [switchOf, hspc, SchedPc.selected]

theorem attempt_passStep {flag : Bool} {minTicks : UInt32}
    (hs : (flag, minTicks) = (fcfsScan m least (i + 1)).2) (hi : i < NPROC)
    (hm : m.SameReady s.mem)
    (hspc : s.spc () = .loop (.fcfsTry i (fcfsTried m least i) flag minTicks))
    (hstep : fcfsTryStep () i (fcfsTried m least i) flag minTicks s = .ok t) :
    PassStep m least i s t := by
  refine .tries hi (.look ?_) hm ?_
  · rw [tryProc_loc.of_ok hstep, ← hs]
    rfl
  · have hsel := tryProc_selected.of_ok hstep
    have hnone : (s.spc ()).selected = none := by rw [hspc]; rfl
    rw [switchOf, if_pos hnone, hsel]
    by_cases hrun : (m.proc (fcfsTried m least i)).state = .runnable <;>
      simp [isRunnable, hrun, (hm _).1]

theorem FcfsAt.step (hs : FcfsAt m least i s) (hpass : InPass m s)
    (hstep : Sched.step .fcfs s e = .ok t) : PassStep m least i s t := by
  by_cases he : ∀ h r, e ≠ .sched h r
  · have hspc := spc_of_not_sched he hstep
    refine .stays ?_ (switchOf_of_spc hspc)
    cases hs with
    | look hl => exact .look (by rw [hspc, hl])
    | attempt hi hl => exact .attempt hi (by rw [hspc, hl])
  push Not at he
  obtain ⟨⟨⟩, r, rfl⟩ := he
  simp only [Sched.step] at hstep
  split at hstep
  · next hrun =>
    rw [schedStep] at hstep
    cases hspc : s.spc () with
    | loop l =>
      obtain ⟨hscan, hm⟩ := hpass hrun l (by rw [hspc]; rfl)
      rw [hspc] at hstep
      cases hs with
      | look hl =>
        rw [hspc] at hl
        obtain rfl : l = _ := hl
        exact look_passStep rfl (of_decide_eq_true hscan) hm hspc hstep
      | attempt hi hl =>
        rw [hspc] at hl
        cases hl
        exact attempt_passStep rfl hi hm hspc hstep
    | swtch p l =>
      rw [hspc] at hstep
      cases hstep
      cases hs with
      | look hl =>
        rw [hspc] at hl
        exact .stays (.look (by simpa [SchedPc.loc] using hl))
          (by simp [switchOf, hspc, SchedPc.selected])
      | attempt hi hl =>
        rw [hspc] at hl
        cases hl
    | ret p l =>
      rw [hspc] at hstep
      have hback : (t.spc ()) = .loop l := (resumed_spc (H := Unit)).of_ok hstep
      cases hs with
      | look hl =>
        rw [hspc] at hl
        refine .stays (.look (by rw [hback]; exact hl)) ?_
        simp [switchOf, hback, SchedPc.selected]
      | attempt hi hl =>
        rw [hspc] at hl
        cases hl
  · cases hstep

/-- The hart has come to the end of its scan. -/
def ScanOver (s : State Unit) : Prop :=
  ∃ least flag minTicks, s.spc () = .loop (.fcfs NPROC least flag minTicks)

theorem FcfsAt.eq_of_over (hs : FcfsAt m least i s) (hover : ScanOver s) : i = NPROC := by
  obtain ⟨least', flag, minTicks, hspc⟩ := hover
  cases hs with
  | look hl =>
    rw [hspc] at hl
    cases hl
    rfl
  | attempt hi hl =>
    rw [hspc] at hl
    cases hl

theorem switches_cons {es : List (Event Unit)} (hstep : Sched.step .fcfs s e = .ok t) :
    switches s (e :: es) = switchOf s t ++ switches t es := by
  rw [switches, Outcome.result_eq_some.mpr hstep]
  rfl

/-- What a pass switches to is `RUNNABLE` and tried by the body of some slot. -/
theorem tried_of_mem_switches {es : List (Event Unit)} (hs : FcfsAt m least i s)
    (hrun : ((sys .fcfs Unit).restrict fun s _ => InPass m s).Run s es t) :
    ∀ x ∈ switches s es, m.SameReady x.1 ∧ (m.proc x.2).state = .runnable ∧
      ∃ n < NPROC, x.2 = fcfsTried m least n := by
  induction hrun generalizing i with
  | nil s => simp [switches]
  | @cons s s' t e es hstep _ ih =>
    obtain ⟨hpass, hstep⟩ := hstep
    rw [switches_cons hstep]
    cases hs.step hpass hstep with
    | stays hs' hsw =>
      rw [hsw]
      exact ih hs'
    | tries hi hs' hm hsw =>
      rw [hsw]
      intro x hx
      rcases List.mem_append.mp hx with hx | hx
      · by_cases hp : (m.proc (fcfsTried m least i)).state = .runnable
        · rw [if_pos hp] at hx
          obtain rfl := List.mem_singleton.mp hx
          exact ⟨hm, hp, i, hi, rfl⟩
        · rw [if_neg hp] at hx
          cases hx
      · exact ih hs' x hx

/-- From the body for `proc[i]` to the end of the scan, each body that finds what it tries
`RUNNABLE` switches to it. -/
theorem mem_switches_of_tried {es : List (Event Unit)} (hs : FcfsAt m least i s)
    (hrun : ((sys .fcfs Unit).restrict fun s _ => InPass m s).Run s es t) (ht : ScanOver t) {n : ℕ}
    (hin : i ≤ n) (hn : n < NPROC) (hp : (m.proc (fcfsTried m least n)).state = .runnable) :
    ∃ x ∈ switches s es, x.2 = fcfsTried m least n := by
  induction hrun generalizing i with
  | nil s =>
    have hi := hs.eq_of_over ht
    omega
  | @cons s s' t e es hstep _ ih =>
    obtain ⟨hpass, hstep⟩ := hstep
    rw [switches_cons hstep]
    cases hs.step hpass hstep with
    | stays hs' hsw =>
      rw [hsw]
      exact ih hs' ht hin
    | tries hi hs' hm hsw =>
      rcases hin.eq_or_lt with rfl | hlt
      · rw [hsw, if_pos hp]
        exact ⟨_, List.mem_cons_self, rfl⟩
      · obtain ⟨x, hx, hq⟩ := ih hs' ht hlt
        exact ⟨x, List.mem_append_right _ hx, hq⟩

/-- On one hart, a pass of the FCFS loop from any table and any `p_least_time`, as long as the
scheduler finds the same processes `RUNNABLE` wherever it is in its scan: everything it switches to
is among the oldest `RUNNABLE` processes of that moment if the first `RUNNABLE` process of the table
is, and `p_least_time` too if it is `RUNNABLE` and tried before that process; and in a pass that
comes to the end of its scan, only then. -/
theorem fcfs_pass_oldest_iff {es : List (Event Unit)}
    (hspc : s.spc () = .loop (.fcfs 0 least false (-1)))
    (hrun : ((sys .fcfs Unit).restrict fun u _ => InPass s.mem u).Run s es t) :
    (FirstOldest s.mem least → ∀ x ∈ switches s es, x.1.Oldest x.2) ∧
    (ScanOver t → ((∀ x ∈ switches s es, x.1.Oldest x.2) ↔ FirstOldest s.mem least)) := by
  have hs : FcfsAt s.mem least 0 s := .look (by rw [hspc]; rfl)
  have hall : FirstOldest s.mem least → ∀ x ∈ switches s es, x.1.Oldest x.2 := by
    intro h x hx
    obtain ⟨hm, hp, n, hn, hq⟩ := tried_of_mem_switches hs hrun x hx
    rw [hm.oldest_iff hp]
    rw [hq] at hp ⊢
    exact (fcfsTried_oldest_iff s.mem least).mpr h n hn hp
  refine ⟨hall, fun ht => ⟨fun h => ?_, hall⟩⟩
  rw [← fcfsTried_oldest_iff]
  intro n hn hp
  obtain ⟨x, hx, hq⟩ := mem_switches_of_tried hs hrun ht (Nat.zero_le n) hn hp
  have hold := h x hx
  rw [hq, (tried_of_mem_switches hs hrun x hx).1.oldest_iff hp] at hold
  exact hold

end Pass

/-- The first process sleeps. The processes in slots `i` and `i + 1`, created at ticks `ctime1` and
`ctime2`, are `RUNNABLE`. -/
def twoWaiting (i : ℕ) (ctime1 ctime2 : UInt32) : Mem where
  proc := fun p =>
    if p.val = 0 then { Proc.zero with state := .sleeping, pid := 1 }
    else if p.val = i then { Proc.zero with state := .runnable, pid := 4, ctime := ctime1 }
    else if p.val = i + 1 then { Proc.zero with state := .runnable, pid := 3, ctime := ctime2 }
    else Proc.zero
  nextpid := 5
  ticks := 30
  queue := ⟨fun _ _ => none, fun _ => 0, fun _ => 0⟩

/-- A pass starts, with `p_least_time` at the first slot; every process is in user code. -/
def passOf (m : Mem) : State Unit :=
  { boot .fcfs Unit with mem := m, thread := fun _ => .resume (.yield .user) }

/-- Each of the last two bodies switches to a process, which yields at its next timer interrupt. -/
def yieldingPass : List (Event Unit) :=
  List.replicate 124 (Event.sched () 0) ++
    [Event.sched () 0, .sched () 0, .sched () 0, .go () true, .call () .yield, .go () true,
      .sched () 0] ++
    [Event.sched () 0, .sched () 0, .sched () 0, .go () true, .call () .yield, .go () true,
      .sched () 0]

/-- `p_least_time` sleeps; the older process comes first, and both bodies switch to it. -/
theorem fcfs_pass_oldest_iff_yieldingPass : ∃ t,
    ((sys .fcfs Unit).restrict fun u _ => InPass (twoWaiting 62 10 20) u).Run
      (passOf (twoWaiting 62 10 20)) yieldingPass t ∧ ScanOver t ∧
    (switches (passOf (twoWaiting 62 10 20)) yieldingPass).map Prod.snd =
      [⟨62, by decide⟩, ⟨62, by decide⟩] ∧
    ∀ x ∈ switches (passOf (twoWaiting 62 10 20)) yieldingPass, x.1.Oldest x.2 := by
  have hexec : ((TransSys.exec
      (fun s e => if InPass (twoWaiting 62 10 20) s then (step .fcfs s e).result else none)
      (passOf (twoWaiting 62 10 20)) yieldingPass).map fun t =>
        decide (t.spc () = .loop (.fcfs NPROC ⟨62, by decide⟩ true 10))) = some true := by
    decide +kernel
  obtain ⟨t, ht, hend⟩ := Option.map_eq_some_iff.mp hexec
  have hrun : ((sys .fcfs Unit).restrict fun u _ => InPass (twoWaiting 62 10 20) u).Run
      (passOf (twoWaiting 62 10 20)) yieldingPass t :=
    .of_exec_restrict (fun _ _ _ hs => Outcome.result_eq_some.mp hs) ht
  have hover : ScanOver t := ⟨_, _, _, of_decide_eq_true hend⟩
  refine ⟨t, hrun, hover, by decide +kernel, ((fcfs_pass_oldest_iff rfl hrun).2 hover).mpr ?_⟩
  intro first hf
  have hready : ∀ q : Slot, ((twoWaiting 62 10 20).proc q).state = .runnable →
      q = ⟨62, by decide⟩ ∨ q = ⟨63, by decide⟩ := by decide
  rcases hready first hf.1 with rfl | rfl
  · exact ⟨by unfold Mem.Oldest; decide, fun _ h => absurd h (by decide)⟩
  · have hfirst : ((twoWaiting 62 10 20).proc ⟨62, by decide⟩).state = .runnable := by decide
    exact absurd hfirst (hf.2 ⟨62, by decide⟩ (by decide))

/-- One pass from its start: the process in slot 1, which had been used before, is switched to while
the older one in slot 2 waits. -/
theorem fcfs_switch_to_younger : ∃ t,
    (sys .fcfs Unit).Run { boot .fcfs Unit with mem := twoWaiting 1 20 10 }
      (List.replicate 4 (.sched () 0)) t ∧ (t.spc ()).selected = some ⟨1, by decide⟩ ∧
    ((twoWaiting 1 20 10).proc ⟨2, by decide⟩).state = .runnable ∧
    ((twoWaiting 1 20 10).proc ⟨2, by decide⟩).ctime <
      ((twoWaiting 1 20 10).proc ⟨1, by decide⟩).ctime := by
  refine ⟨_, .cons rfl (.cons rfl (.cons rfl (.cons rfl (.nil _)))), ?_, ?_, ?_⟩ <;> decide

end Xv6.Sched
