import Mathlib.Algebra.Order.BigOperators.Group.List
import Xv6.Sched.Choice
import Xv6.Sched.Effect
import Xv6.Sched.Writes

/-! # The lottery of LBS

`totalTickets` adds up the tickets of the `RUNNABLE` processes in an `int`, and `sys_settickets`
accepts every positive `int`. The draw is what it is meant to be as long as the sum fits.
-/

namespace Xv6.Sched
set_option autoImplicit false

/-! ## The sum -/

def stake (m : Mem) (p : Slot) : ℤ := if (m.proc p).state = .runnable then (m.proc p).tickets else 0

def exactTickets (m : Mem) : ℤ := ((List.finRange NPROC).map (stake m)).sum

theorem int_lt (n : ℤ) : int n < 2 ^ 31 := Int.bmod_lt (by decide)

theorem int_eq {n : ℤ} (hlo : -2 ^ 31 ≤ n) (hhi : n < 2 ^ 31) : int n = n :=
  Int.bmod_eq_of_le (by norm_num at hlo ⊢; omega) (by norm_num at hhi ⊢; omega)

def ticketsFrom (m : Mem) (total : ℤ) (l : List Slot) : ℤ :=
  l.foldl (fun total p =>
    if (m.proc p).state = .runnable then int (total + (m.proc p).tickets) else total) total

variable {m : Mem}

theorem ticketsFrom_lt {total : ℤ} (l : List Slot) (ht : total < 2 ^ 31) :
    ticketsFrom m total l < 2 ^ 31 := by
  induction l generalizing total with
  | nil => exact ht
  | cons p l ih =>
    apply ih
    dsimp only
    split
    · exact int_lt _
    · exact ht

theorem ticketsFrom_eq {total : ℤ} (l : List Slot) (hstake : ∀ p, 0 ≤ stake m p) (ht : 0 ≤ total)
    (hfit : total + (l.map (stake m)).sum < 2 ^ 31) :
    ticketsFrom m total l = total + (l.map (stake m)).sum := by
  induction l generalizing total with
  | nil => simp [ticketsFrom]
  | cons p l ih =>
    have hrest : 0 ≤ (l.map (stake m)).sum := by
      apply List.sum_nonneg
      intro x hx
      obtain ⟨q, -, rfl⟩ := List.mem_map.mp hx
      exact hstake q
    have hp := hstake p
    rw [List.map_cons, List.sum_cons] at hfit ⊢
    have hnext : (if (m.proc p).state = .runnable then int (total + (m.proc p).tickets) else total)
        = total + stake m p := by
      rw [stake] at hp hfit ⊢
      split
      · next hrun =>
        rw [if_pos hrun] at hp hfit
        exact int_eq (by omega) (by omega)
      · omega
    rw [ticketsFrom, List.foldl_cons, hnext]
    rw [← add_assoc] at hfit ⊢
    exact ih (by omega) hfit

theorem totalTickets_eq_iff (hstake : ∀ p, 0 ≤ stake m p) :
    totalTickets m = exactTickets m ↔ exactTickets m < 2 ^ 31 := by
  constructor
  · intro h
    rw [← h]
    exact ticketsFrom_lt _ (show (0 : ℤ) < 2 ^ 31 by decide)
  · intro h
    have hsum := ticketsFrom_eq (List.finRange NPROC) hstake (le_refl (0 : ℤ))
    rw [zero_add] at hsum
    exact hsum h

theorem stake_le_exactTickets (hstake : ∀ p, 0 ≤ stake m p) (p : Slot) :
    stake m p ≤ exactTickets m := by
  apply List.single_le_sum
  · intro x hx
    obtain ⟨q, -, rfl⟩ := List.mem_map.mp hx
    exact hstake q
  · exact List.mem_map_of_mem (List.mem_finRange p)

theorem toNat_ofInt {n : ℤ} (hlo : 0 ≤ n) (hhi : n < 2 ^ 31) :
    ((UInt32.ofInt n).toNat : ℤ) = n := by
  rw [UInt32.ofInt, UInt32.toNat_ofNat']
  omega

theorem allot_eq {p : Slot} {r : UInt32} (htotal : 0 < totalTickets m)
    (hfit : totalTickets m < 2 ^ 31) (hpos : 0 ≤ (m.proc p).tickets)
    (hle : (m.proc p).tickets ≤ totalTickets m) :
    allot m p r = (r.toNat : ℤ) % totalTickets m - (m.proc p).tickets := by
  have hrem : ((r % UInt32.ofInt (totalTickets m)).toNat : ℤ) = (r.toNat : ℤ) % totalTickets m := by
    rw [UInt32.toNat_mod, Int.natCast_emod, toNat_ofInt htotal.le hfit]
  have hlo : 0 ≤ (r.toNat : ℤ) % totalTickets m := Int.emod_nonneg _ (by omega)
  have hhi : (r.toNat : ℤ) % totalTickets m < totalTickets m := Int.emod_lt_of_pos _ htotal
  have hint : int ((r.toNat : ℤ) % totalTickets m) = (r.toNat : ℤ) % totalTickets m :=
    int_eq (by omega) (by omega)
  rw [allot, hrem, hint]
  exact int_eq (by omega) (by omega)

/-! ## Tickets over whole runs -/

section
variable {H : Type} [DecidableEq H] {s s' : State H}

/-- A slot in use holds at least one ticket. -/
def HasTickets (x : Proc) : Prop := x.state ≠ .unused → 1 ≤ x.tickets

omit [DecidableEq H] in
theorem HasTickets.write {e : Event H} {q : Slot} {y : Proc} (hI : Inv .lbs s)
    (hx : ∀ p, HasTickets (s.mem.proc p)) (hw : Write s e q y) : HasTickets y := by
  intro hy
  cases hw with
  | same | queue | niceness | resumed | parent | priority | setkilled => exact hx q hy
  | dispatch h l ct wait hl hrun =>
    have hb := hI.build_eq hl
    exact hx q (by rw [hrun (by simp [hb]) (by simp [hb])]; simp)
  | leave h pc st chan status hr ht hst => exact hx q (by rw [hI.running_at hr ht]; simp)
  | wake hs => exact hx q (by rw [hs]; simp)
  | kill h ok p pid he hr ht hp =>
    rw [killOne, if_pos hp] at hy ⊢
    have hused : (s.mem.proc q).state ≠ .unused := by
      intro hst
      simp [hst] at hy
    simpa using hx q hused
  | alloc h p hr ht hq =>
    have hparent := hx p (by rw [hI.running_at hr ht]; simp)
    simpa [allocOne] using hparent
  | allocFail p => simp [allocFail, freeproc] at hy
  | reap hz => simp [freeproc] at hy
  | ready h p hr ht =>
    have hused := (hI.child p q (by rw [ht]; rfl)).1
    exact hx q (by rw [hused]; simp)
  | time =>
    have hused : (s.mem.proc q).state ≠ .unused := by simpa [updateTime] using hy
    simpa [updateTime] using hx q hused
  | tickets n hn => exact hn

theorem hasTickets_of_reachable (hs : (sys .lbs H).Reachable s) (q : Slot) :
    HasTickets (s.mem.proc q) := by
  have hall : Inv .lbs s ∧ ∀ q, HasTickets (s.mem.proc q) := by
    refine hs.invariant (I := fun s => Inv .lbs s ∧ ∀ q, HasTickets (s.mem.proc q)) ?_ ?_
    · rintro _ rfl
      refine ⟨boot_inv, ?_⟩
      intro q hq
      by_cases hi : q = initproc
      · subst hi
        simp [boot, bootMem]
      · simp [boot, bootMem, hi, Proc.zero] at hq
    · rintro s e s' ⟨hI, hx⟩ hstep
      refine ⟨(step_ensures hI e (hI.fresh (by decide) e)).of_ok hstep, ?_⟩
      intro q
      exact HasTickets.write hI hx (step_writes hstep q)
  exact hall.2 q

theorem stake_nonneg (hs : (sys .lbs H).Reachable s) (p : Slot) : 0 ≤ stake s.mem p := by
  rw [stake]
  split
  · next hp =>
    have := hasTickets_of_reachable hs p (by rw [hp]; simp)
    omega
  · exact le_rfl

/-- The step from `s` to `s'`, in which `h` draws `r` for `p`, is the lottery that is meant: the
total is exact and positive, the remainder is taken by a non-zero number, and `p` is run just when
the remainder is below its tickets. -/
structure DrawExact (h : H) (p : Slot) (r : UInt32) (s s' : State H) : Prop where
  total : totalTickets s.mem = exactTickets s.mem
  pos : 0 < totalTickets s.mem
  divisor : UInt32.ofInt (totalTickets s.mem) ≠ 0
  run : (s'.spc h).selected = some p ↔
    (r.toNat : ℤ) % exactTickets s.mem < (s.mem.proc p).tickets

theorem lbs_selected {h : H} {p : Slot} {r : UInt32} (hr : s.run h = none)
    (hl : s.spc h = .loop (.lbs p.val)) (hp : (s.mem.proc p).state = .runnable)
    (hstep : (sys .lbs H).step s (.sched h r) s') :
    (s'.spc h).selected = some p ↔ allot s.mem p r < 0 := by
  have hs : step .lbs s (.sched h r) = .ok s' := hstep
  simp only [step, if_pos hr, schedStep, hl, locStep, lbsStep, dif_pos p.isLt] at hs
  rw [tryProc_selected.of_ok hs]
  simp [isRunnable, hp]

/-- Whenever LBS draws for a `RUNNABLE` process in a reachable state, the draw is exact just when
the sum of the tickets fits an `int`. -/
theorem lbs_draw_exact_iff {h : H} {p : Slot} {r : UInt32} (hs : (sys .lbs H).Reachable s)
    (hr : s.run h = none) (hl : s.spc h = .loop (.lbs p.val))
    (hp : (s.mem.proc p).state = .runnable) (hstep : (sys .lbs H).step s (.sched h r) s') :
    DrawExact h p r s s' ↔ exactTickets s.mem < 2 ^ 31 := by
  have hstake := stake_nonneg hs
  have htickets := hasTickets_of_reachable hs p (by rw [hp]; simp)
  constructor
  · intro hdraw
    exact (totalTickets_eq_iff hstake).mp hdraw.total
  · intro hfit
    have htotal := (totalTickets_eq_iff hstake).mpr hfit
    have hle := stake_le_exactTickets hstake p
    rw [stake, if_pos hp] at hle
    have hpos : 0 < totalTickets s.mem := by omega
    have hof := toNat_ofInt hpos.le (by omega)
    refine ⟨htotal, hpos, ?_, ?_⟩
    · intro hzero
      rw [hzero] at hof
      exact absurd hof.symm (by simpa using hpos.ne')
    · rw [lbs_selected hr hl hp hstep,
        allot_eq hpos (by omega) (by omega) (by omega), htotal]
      omega

end

/-- The first process takes `n` tickets, forks and yields; LBS comes to the child. -/
def stakes (n : ℤ) : List (Event Unit) :=
  [.sched () 0, .sched () 0, .go () true, .call () (.settickets n), .call () .fork,
    .go () true, .go () true, .go () true, .go () true, .call () .yield, .go () true, .sched () 0]

theorem lbs_draw_exact_iff_stakes : ∃ s s' : State Unit, (sys .lbs Unit).Reachable s ∧
    exactTickets s.mem = 6 ∧ (sys .lbs Unit).step s (.sched () 7) s' ∧
    DrawExact () ⟨1, by decide⟩ 7 s s' := by
  have hrun : (TransSys.exec (stepOk .lbs) (boot .lbs Unit) (stakes 3)).any (fun s =>
      s.run () = none ∧ s.spc () = .loop (.lbs 1) ∧
        (s.mem.proc ⟨1, by decide⟩).state = .runnable ∧ (stepOk .lbs s (.sched () 7)).isSome ∧
        exactTickets s.mem = 6) = true := by
    decide +kernel
  obtain ⟨s, hs, h⟩ := (Option.any_eq_true _ _).1 hrun
  obtain ⟨hr, hl, hp, hsome, hsum⟩ := of_decide_eq_true h
  obtain ⟨s', hs'⟩ := Option.isSome_iff_exists.mp hsome
  have hreach : (sys .lbs Unit).Reachable s :=
    (TransSys.Reachable.init rfl).run (.of_exec (fun _ _ _ => Outcome.result_eq_some.mp) hs)
  have hstep : (sys .lbs Unit).step s (.sched () 7) s' := Outcome.result_eq_some.mp hs'
  exact ⟨s, s', hreach, hsum, hstep,
    (lbs_draw_exact_iff hreach hr hl hp hstep).mpr (by rw [hsum]; decide)⟩

/-- Then LBS draws for the child: the total is negative, although the sum of the tickets is 2^31. -/
theorem totalTickets_overflows : ∃ s s' : State Unit, (sys .lbs Unit).Reachable s ∧
    s.run () = none ∧ s.spc () = .loop (.lbs 1) ∧
    (s.mem.proc ⟨1, by decide⟩).state = .runnable ∧ (sys .lbs Unit).step s (.sched () 7) s' ∧
    exactTickets s.mem = 2 ^ 31 ∧ totalTickets s.mem = -2 ^ 31 := by
  have hrun : ((TransSys.exec (stepOk .lbs) (boot .lbs Unit) (stakes (2 ^ 30))).map fun s =>
      decide (s.run () = none ∧ s.spc () = .loop (.lbs 1) ∧
        (s.mem.proc ⟨1, by decide⟩).state = .runnable ∧ (stepOk .lbs s (.sched () 7)).isSome ∧
        exactTickets s.mem = 2 ^ 31 ∧ totalTickets s.mem = -2 ^ 31)) = some true := by
    decide +kernel
  obtain ⟨s, hs, hst⟩ := Option.map_eq_some_iff.mp hrun
  obtain ⟨hr, hl, hp, hstep, hexact, htotal⟩ := of_decide_eq_true hst
  obtain ⟨s', hs'⟩ := Option.isSome_iff_exists.mp hstep
  exact ⟨s, s', reachable_of_exec hs, hr, hl, hp, Outcome.result_eq_some.mp hs', hexact, htotal⟩

end Xv6.Sched
