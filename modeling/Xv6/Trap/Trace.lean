import Xv6.Trap.Alarm

/-! # Tracing

What `syscall` of `kernel/syscall.c` prints about a call whose bit in `p->trace_mask` is set.
-/

namespace Xv6.Trap
set_option autoImplicit false

/-- By system call number; entries that the table does not give are zero. -/
def syscallArgc : List ℕ :=
  [0, 0, 1, 1, 1, 3, 1, 2, 2, 1, 1, 0, 1, 1, 0, 2, 3, 1, 1, 2, 2, 1, 1, 0, 0, 3, 1, 1]

def syscallName : List (Option String) :=
  [none, "fork", "exit", "wait", "pipe", "read", "kill", "exec", "fstat", "chdir", "dup", "getpid",
    "sbrk", "sleep", "uptime", "open", "write", "mknod", "unlink", "link", "mkdir", "close",
    "trace",
    none, none, "waitx", "set_priority", "settickets"]

def SYS_trace : ℕ := 22

/-- `printf` takes an `int` for `%d`. -/
def percentD (x : BitVec 64) : ℤ := (x.setWidth 32).toInt

structure Line where
  pid : ℤ
  name : Option String
  args : List ℤ
  result : ℤ

def shown (num : ℕ) : List Reg := [Reg.a0, .a1, .a2, .a3, .a4, .a5].take (syscallArgc.getD num 0)

def traceLine (pid : ℤ) (num : ℕ) (t : Trapframe) : Line where
  pid := pid
  name := syscallName.getD num none
  args := (shown num).map fun r => percentD (t.reg r)
  result := percentD (t.reg .a0)

/-- The line that `syscall` prints, if any. The handler has returned and its result is in `a0`;
`mask` is `p->trace_mask` before the call, which `sys_trace` sets. -/
def traced (r : Reply) (pid : ℤ) (mask : BitVec 32) (o : Own) : Option Line :=
  let num := (o.trapframe.argint .a7).toInt
  let mask := if num = SYS_trace then o.trapframe.argint .a0 else mask
  if 0 < num ∧ num < syscallArgc.length ∧ mask.getLsbD num.toNat = true then
    some (traceLine pid num.toNat (r.finish o).trapframe)
  else none

/-- The line shows the registers at entry and the result of the handler. -/
structure Line.Reports (l : Line) (num : ℕ) (t : Trapframe) (result : BitVec 64) : Prop where
  args : l.args = (shown num).map fun r => (t.reg r).toInt
  result : l.result = result.toInt

def IsInt (x : BitVec 64) : Prop := percentD x = x.toInt

instance (x : BitVec 64) : Decidable (IsInt x) := inferInstanceAs (Decidable (_ = _))

variable {num : ℕ} {t : Trapframe}

theorem shown_a0 : .a0 ∈ shown num ↔ shown num ≠ [] := by
  rw [shown]
  cases syscallArgc.getD num 0 with
  | zero => simp
  | succ n => simp

theorem reports_iff {pid : ℤ} {x : BitVec 64} : (traceLine pid num (t.set .a0 x)).Reports num t x ↔
      (shown num ≠ [] → x = t.reg .a0) ∧ (∀ r ∈ shown num, IsInt (t.reg r)) ∧ IsInt x := by
  have hself : (t.set .a0 x).reg .a0 = x := by simp [Trapframe.set]
  have hother : ∀ r, r ≠ .a0 → (t.set .a0 x).reg r = t.reg r := fun r hr =>
    Function.update_of_ne hr _ _
  rw [← shown_a0]
  constructor
  · rintro ⟨hargs, hres⟩
    rw [traceLine] at hargs hres
    dsimp only at hargs hres
    rw [hself] at hres
    have hargs' := List.map_inj_left.mp hargs
    have heq : .a0 ∈ shown num → x = t.reg .a0 := by
      intro h0
      have := hargs' .a0 h0
      rw [hself, hres] at this
      exact BitVec.eq_of_toInt_eq this
    refine ⟨heq, ?_, hres⟩
    intro r hr
    by_cases hr0 : r = .a0
    · subst hr0
      rw [← heq hr]
      exact hres
    · rw [← hother r hr0, IsInt, hargs' r hr, hother r hr0]
  · rintro ⟨h0, hint, hx⟩
    refine ⟨List.map_inj_left.mpr ?_, ?_⟩
    · intro r hr
      by_cases hr0 : r = .a0
      · subst hr0
        rw [hself, h0 hr]
        exact hint _ hr
      · rw [hother r hr0]
        exact hint r hr
    · show percentD ((t.set .a0 x).reg .a0) = _
      rw [hself]
      exact hx

/-- Nothing is shown of `sigalarm` and `sigreturn` but the result. -/
theorem reports_of_nil {pid : ℤ} {t' : Trapframe} {x : BitVec 64} (h : shown num = []) :
    (traceLine pid num (t'.set .a0 x)).Reports num t x ↔ IsInt x := by
  have hself : (traceLine pid num (t'.set .a0 x)).result = percentD x := by
    simp [traceLine, Trapframe.set]
  constructor
  · rintro ⟨-, hres⟩
    exact hself.symm.trans hres
  · intro hx
    refine ⟨?_, hself.trans hx⟩
    show (shown num).map _ = (shown num).map _
    rw [h, List.map_nil, List.map_nil]

theorem shown_of_sig (hnum : (t.argint .a7).toInt = num)
    (h : t.num = .sigalarm ∨ t.num = .sigreturn) : shown num = [] := by
  have hcases : num = 23 ∨ num = 24 := by
    rw [Trapframe.num, hnum] at h
    split_ifs at h <;> first | omega | simp at h
  rcases hcases with rfl | rfl <;> rfl

theorem isInt_of_sig {r : Reply} {o : Own}
    (h : o.trapframe.num = .sigalarm ∨ o.trapframe.num = .sigreturn) : IsInt (r.run o).1 := by
  have hcases : (r.run o).1 = 0 ∨ (r.run o).1 = -1 := by
    rcases h with h | h
    · simp only [Reply.run, h, sysSigalarm]
      split
      · exact .inl rfl
      · exact .inr rfl
    · simp only [Reply.run, h, sysSigreturn]
      split
      · exact .inl rfl
      · exact .inr rfl
  rcases hcases with h | h <;> rw [h] <;> decide

/-- For a call that returns to the same program and is traced, the line shows the registers as they
were at entry and the result exactly if all of these are `int` values and the result of a call with
arguments is its first argument: `a0` has been overwritten when the line is printed. -/
theorem trace_reports_call_iff (r : Reply) (pid : ℤ) (mask : BitVec 32) (o : Own) {num : ℕ}
    (hnum : (o.trapframe.argint .a7).toInt = num) (hpos : 0 < num) (hlt : num < 28)
    (hmask : (if num = SYS_trace then o.trapframe.argint .a0 else mask).getLsbD num = true)
    (hexit : o.trapframe.num ≠ .exit) (hexec : o.trapframe.num = .exec → r.image = none) :
    ∃ l, traced r pid mask o = some l ∧ (l.Reports num o.trapframe (r.run o).1 ↔
      (shown num ≠ [] → r.ret = o.trapframe.reg .a0) ∧
      (∀ x ∈ shown num, IsInt (o.trapframe.reg x)) ∧
      (o.trapframe.num = .plain ∨ o.trapframe.num = .exec → IsInt r.ret)) := by
  have hline : traced r pid mask o = some (traceLine pid num (r.finish o).trapframe) := by
    simp only [traced, hnum, Int.toNat_natCast, Nat.cast_inj]
    exact if_pos ⟨by omega, Nat.cast_lt.mpr hlt, hmask⟩
  refine ⟨_, hline, ?_⟩
  show (traceLine pid num ((r.run o).2.trapframe.set .a0 (r.run o).1)).Reports _ _ _ ↔ _
  by_cases hsig : o.trapframe.num = .sigalarm ∨ o.trapframe.num = .sigreturn
  · have hnil := shown_of_sig hnum hsig
    rw [reports_of_nil hnil, hnil]
    refine iff_of_true (isInt_of_sig hsig) ⟨fun h => absurd rfl h, by simp, ?_⟩
    rcases hsig with h | h <;> rw [h] <;> rintro (h | h) <;> cases h
  · have hrun : r.run o = (r.ret, o) ∧ (o.trapframe.num = .plain ∨ o.trapframe.num = .exec) := by
      cases hn : o.trapframe.num with
      | exit => exact absurd hn hexit
      | exec => exact ⟨by simp only [Reply.run, hn, hexec hn], .inr rfl⟩
      | plain => exact ⟨by simp only [Reply.run, hn], .inl rfl⟩
      | sigalarm => exact absurd (.inl hn) hsig
      | sigreturn => exact absurd (.inr hn) hsig
      | unknown =>
        rw [Trapframe.num, hnum] at hn
        split_ifs at hn
        omega
    rw [hrun.1, reports_iff]
    simp only [hrun.2, forall_const]

def closing (fd : BitVec 64) : Own :=
  { (runningState 0 0 false).own with trapframe := regsWith fd 21 }

theorem trace_reports_call_iff_closing : ∃ l, traced quietReply 1 (-1) (closing 0) = some l ∧
    l.Reports 21 (closing 0).trapframe 0 := by
  have hnum : ((closing 0).trapframe.argint .a7).toInt = (21 : ℕ) := by decide
  obtain ⟨l, hl, hiff⟩ := trace_reports_call_iff quietReply 1 (-1) (closing 0) hnum
    (by decide) (by decide) (by decide) (by decide) (fun _ => rfl)
  exact ⟨l, hl, hiff.mpr ⟨fun _ => rfl, by decide, fun _ => by decide⟩⟩

/-- `close(5)` returns 0 and is shown as `close (0) -> 0`. -/
theorem trace_shows_result :
    (traced quietReply 1 (-1) (closing 5)).map (fun l => (l.args, l.result)) =
    some ([0], 0) ∧ (closing 5).trapframe.reg .a0 = 5 := by
  decide

end Xv6.Trap
