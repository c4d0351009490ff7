import Mathlib.Algebra.Order.BigOperators.Group.Finset
import Xv6.File.Machine
import Xv6.Vm.Owners

/-! # The references to files, pipes and pages

A process has a reference to a file for each of its descriptors and each local variable of the call
it is in, except for a descriptor that `dup` has not yet paid for or `exit` has already given up.
An end of a pipe is held by the file it belongs to, or by the process that is about to close it, and
a page whose two ends are closed by the process that is about to free it.
-/

namespace Xv6.File
set_option autoImplicit false
open Vm RefPool

/-! ## References to files -/

def Ret.held : Ret → List FileId
  | close f => [f]
  | done | exit _ => []

def Ret.unpaid : Ret → Option Fd
  | exit fd => some fd
  | done | close _ => none

def Pc.held : Pc → List FileId
  | fileclose f .done | pipeSecond f | openFd f _ => [f]
  | fileclose f (.close g) | pipePage f g | pipeFds f g => [f, g]
  | pipeclose _ _ ret | kfree _ ret | iput _ ret => ret.held
  | _ => []

/-- The descriptor that does not count as a reference. -/
def Pc.unpaid : Pc → Option Fd
  | dup fd _ | exitClear fd => some fd
  | pipeclose _ _ ret | kfree _ ret | iput _ ret => ret.unpaid
  | _ => none

def Pc.fresh : Pc → List FileId
  | pipeSecond f | openFd f _ => [f]
  | pipePage f g => [f, g]
  | _ => []

def paid (o : Ofile) : Option Fd → Ofile
  | none => o
  | some fd => Function.update o fd none

def refs (o : Ofile) (pc : Pc) (f : FileId) : ℕ := countOf (paid o pc.unpaid) f + pc.held.count f

def State.owed (s : State) (f : FileId) : ℕ := ∑ q, refs (s.ofile q) (s.pc q) f

theorem fresh_sublist (pc : Pc) : pc.fresh.Sublist pc.held := by
  cases pc <;> simp [Pc.fresh, Pc.held]

theorem owed_change {s t : State} {p : Proc} (f : FileId)
    (hpc : ∀ q, q ≠ p → t.pc q = s.pc q) (hofile : ∀ q, q ≠ p → t.ofile q = s.ofile q) :
    t.owed f + refs (s.ofile p) (s.pc p) f = s.owed f + refs (t.ofile p) (t.pc p) f := by
  have hrest : ∑ q ∈ Finset.univ.erase p, refs (t.ofile q) (t.pc q) f =
      ∑ q ∈ Finset.univ.erase p, refs (s.ofile q) (s.pc q) f := by
    apply Finset.sum_congr rfl
    intro q hq
    rw [hpc q (Finset.ne_of_mem_erase hq), hofile q (Finset.ne_of_mem_erase hq)]
  rw [State.owed, State.owed, ← Finset.sum_erase_add _ _ (Finset.mem_univ p),
    ← Finset.sum_erase_add Finset.univ (fun q => refs (s.ofile q) (s.pc q) f) (Finset.mem_univ p),
    hrest]
  omega

theorem refs_le_owed (s : State) (p : Proc) (f : FileId) :
    refs (s.ofile p) (s.pc p) f ≤ s.owed f :=
  Finset.single_le_sum (f := fun q => refs (s.ofile q) (s.pc q) f) (fun _ _ => Nat.zero_le _)
    (Finset.mem_univ p)

theorem refs_add_le_owed (s : State) {p q : Proc} (hne : p ≠ q) (f : FileId) :
    refs (s.ofile p) (s.pc p) f + refs (s.ofile q) (s.pc q) f ≤ s.owed f := by
  rw [State.owed, ← Finset.sum_erase_add _ _ (Finset.mem_univ q)]
  have hle := Finset.single_le_sum (f := fun q => refs (s.ofile q) (s.pc q) f)
    (fun _ _ => Nat.zero_le _) (Finset.mem_erase.mpr ⟨hne, Finset.mem_univ p⟩)
  omega

/-! ## Ends of pipes -/

/-- The end of the pipe at a page that is for writing or not; `none` is the page itself. -/
abbrev Token := Ppn × Option Bool

def token (x : File) : Option Token :=
  if x.type = .pipe then some (x.pipe, some x.writable) else none

def Pc.token : Pc → Option Token
  | pipeclose pi writable _ => some (pi, some writable)
  | kfree pi _ => some (pi, none)
  | _ => none

def State.tokens (s : State) : FileId ⊕ Proc → Option Token :=
  Sum.elim (File.token ∘ s.file) (Pc.token ∘ s.pc)

def wanted (e : Option Ends) : Option Bool → Bool
  | some writable => e.any (·.isOpen writable)
  | none => e = some ⟨false, false⟩

theorem tokens_go (s : State) (p : Proc) (pc : Pc) :
    (s.go p pc).tokens = Function.update s.tokens (.inr p) pc.token := by
  rw [State.tokens, State.go, Function.comp_update, State.tokens, Sum.update_elim_inr]

theorem tokens_setFile (s : State) (f : FileId) (x : File) :
    (s.setFile f x).tokens = Function.update s.tokens (.inl f) (token x) := by
  rw [State.tokens, State.setFile, Function.comp_update, State.tokens, Sum.update_elim_inl]

/-! ## The invariant -/

def PcOk (o : Ofile) : Pc → Prop
  | .dup fd f => o fd = some f ∧ ∃ fd', fd' ≠ fd ∧ o fd' = some f
  | .fileclose f (.exit fd) => o fd = some f ∧ ∀ j < fd, o j = none
  | .pipeclose _ _ (.exit fd) | .kfree _ (.exit fd) | .iput _ (.exit fd) | .exitClear fd =>
    ∀ j < fd, o j = none
  | .pipeCopyout rf wf fd0 fd1 => o fd0 = some rf ∧ o fd1 = some wf ∧ fd0 ≠ fd1
  | .exit fd => ∀ j : Fd, j.val < fd → o j = none
  | _ => True

def Fresh (x : File) : Prop := x.ref = 1 ∧ x.type = .none

/-- The pages in use are those of the pipes and those of the rest of the kernel. -/
def PoolOk (R : Ram) (k : Kmem) (pipe : Ppn → Option Ends) (rest : Multiset (Share Ppn)) : Prop :=
  ∃ pages : Finset Ppn, (∀ pg, pg ∈ pages ↔ (pipe pg).isSome) ∧
    KOk R k (pages.val.map Share.sole + rest)

structure Inv (R : Ram) (s : State) : Prop where
  ref : ∀ f, (s.file f).ref = s.owed f
  typed : ∀ f, (s.file f).ref = 0 → (s.file f).type = .none
  fresh : ∀ p, ∀ f ∈ (s.pc p).fresh, Fresh (s.file f)
  tokens : ∀ pg k, countOf s.tokens (pg, k) = if wanted (s.pipe pg) k then 1 else 0
  pool : PoolOk R s.kmem s.pipe s.rest
  counts : ∀ pg, s.allocs pg = s.frees pg + if (s.pipe pg).isSome then 1 else 0
  pcs : ∀ p, PcOk (s.ofile p) (s.pc p)
  forked : ∀ p np i, s.pc p = .fork np i →
    s.status np = .used ∧ ∀ j : Fd, i ≤ j.val → s.ofile np j = none
  forks : ∀ p q np i j, s.pc p = .fork np i → s.pc q = .fork np j → p = q
  idle : ∀ p, s.status p ≠ .alive → s.pc p = .user
  empty : ∀ p, s.status p = .unused ∨ s.status p = .zombie → ∀ fd, s.ofile p fd = none

/-! ## Program counters after a call -/

def Ret.refs (o : Ofile) (ret : Ret) (f : FileId) : ℕ :=
  countOf (paid o ret.unpaid) f + ret.held.count f

theorem refs_next (o : Ofile) (ret : Ret) : refs o ret.next = ret.refs o := by
  cases ret <;> rfl

theorem refs_afterClose (o : Ofile) (ff : File) (ret : Ret) :
    refs o (afterClose ff ret) = ret.refs o := by
  rw [afterClose]
  cases ff.type
  · exact refs_next o ret
  all_goals rfl

theorem refs_fileclose {o : Ofile} {f : FileId} {ret : Ret}
    (h : ∀ fd, ret = .exit fd → o fd = some f)
    (g : FileId) : refs o (.fileclose f ret) g = ret.refs o g + if f = g then 1 else 0 := by
  cases ret with
  | done | close f' =>
    simp [refs, Ret.refs, Pc.unpaid, Ret.unpaid, Pc.held, Ret.held, List.count_cons, Nat.add_assoc]
  | exit fd =>
    have hclear := countOf_clear (h fd rfl) g
    simp only [refs, Ret.refs, Pc.unpaid, Ret.unpaid, Pc.held, Ret.held, paid, List.count_nil]
    omega

theorem token_next (ret : Ret) : ret.next.token = none := by
  cases ret <;> rfl

theorem token_afterClose (ff : File) (ret : Ret) : (afterClose ff ret).token = token ff := by
  rw [afterClose, token]
  cases ff.type
  · exact token_next ret
  all_goals rfl

inductive Closing (ret : Ret) : Pc → Prop
  | pipeclose (pi : Ppn) (writable : Bool) : Closing ret (.pipeclose pi writable ret)
  | kfree (pi : Ppn) : Closing ret (.kfree pi ret)
  | iput (ip : InodeId) : Closing ret (.iput ip ret)
  | next : Closing ret ret.next

theorem closing_afterClose (ff : File) (ret : Ret) : Closing ret (afterClose ff ret) := by
  rw [afterClose]
  cases ff.type
  · exact .next
  · exact .pipeclose _ _
  all_goals exact .iput _

section Closing
variable {ret : Ret} {pc : Pc} (h : Closing ret pc)
include h

theorem Closing.fresh_eq_nil : pc.fresh = [] := by
  cases h with
  | next => cases ret <;> rfl
  | _ => rfl

theorem Closing.ne_fork (np : Proc) (i : ℕ) : pc ≠ .fork np i := by
  cases h with
  | next => cases ret <;> simp [Ret.next]
  | _ => simp

theorem Closing.pcOk {o : Ofile}
    (hexit : ∀ fd, ret = .exit fd → ∀ j < fd, o j = none) : PcOk o pc := by
  cases h with
  | next =>
    cases ret with
    | exit fd => exact hexit fd rfl
    | _ => exact trivial
  | _ =>
    cases ret with
    | exit fd => exact hexit fd rfl
    | _ => exact trivial

end Closing

theorem PcOk.exit_empty {o : Ofile} {ret : Ret} {pc : Pc} (h : PcOk o pc)
    (hpc : Closing ret pc ∨ ∃ f, pc = .fileclose f ret) :
    ∀ fd, ret = .exit fd → ∀ j < fd, o j = none := by
  rintro fd rfl
  rcases hpc with hpc | ⟨f, rfl⟩
  · cases hpc <;> exact h
  · exact h.2

/-! ## Steps of one process -/

/-- `p` may be at `pc` with the descriptors `o`: it is alive, and goes on with the `fork` it is in
or starts one for a slot that nobody else fills. Or its slot is being filled by a `fork`. -/
inductive MayMove (s : State) (p : Proc) (o : Ofile) (pc : Pc) : Prop
  | alive (h : s.status p = .alive)
      (hfork : ∀ np i, pc = .fork np i → (∃ j ≤ i, s.pc p = .fork np j) ∨
        s.status np = .used ∧ (∀ fd, s.ofile np fd = none) ∧ ∀ q j, s.pc q ≠ .fork np j)
  | filled (h : s.status p = .used) (hpc : pc = .user)
      (ho : ∀ q i, s.pc q = .fork p i → ∀ j : Fd, i ≤ j.val → o j = none)

structure Local (s s' : State) (p : Proc) : Prop where
  pc : ∀ q, q ≠ p → s'.pc q = s.pc q
  ofile : ∀ q, q ≠ p → s'.ofile q = s.ofile q
  status : s'.status = s.status
  may : MayMove s p (s'.ofile p) (s'.pc p)
  file : ∀ f, s'.file f = s.file f ∨ ∀ q, q ≠ p → f ∉ (s.pc q).fresh

section Step
variable {R : Ram} {s s' : State} {p : Proc}

theorem Inv.not_fresh (h : Inv R s) {q : Proc} (hne : q ≠ p) {f : FileId}
    (hf : f ∈ (s.pc q).fresh) : refs (s.ofile p) (s.pc p) f = 0 := by
  have hheld : 0 < (s.pc q).held.count f :=
    List.count_pos_iff.mpr ((fresh_sublist (s.pc q)).mem hf)
  have hsum := refs_add_le_owed s hne f
  have hone := (h.fresh q f hf).1
  rw [h.ref f] at hone
  rw [refs] at hsum
  omega

theorem Inv.mine (h : Inv R s) {f : FileId}
    (hf : (s.file f).ref = 0 ∨ 0 < refs (s.ofile p) (s.pc p) f) (q : Proc) (hq : q ≠ p) :
    f ∉ (s.pc q).fresh := by
  intro hfresh
  rcases hf with hzero | hpos
  · have := (h.fresh q f hfresh).1
    omega
  · have := h.not_fresh hq hfresh
    omega

theorem Inv.of_local (h : Inv R s) (l : Local s s' p)
    (hrefs : ∀ f, (s'.file f).ref + refs (s.ofile p) (s.pc p) f =
      (s.file f).ref + refs (s'.ofile p) (s'.pc p) f)
    (htyped : ∀ f, (s'.file f).ref = 0 → (s'.file f).type = .none)
    (hfresh : ∀ f ∈ (s'.pc p).fresh, Fresh (s'.file f))
    (htokens : ∀ pg k, countOf s'.tokens (pg, k) = if wanted (s'.pipe pg) k then 1 else 0)
    (hpool : PoolOk R s'.kmem s'.pipe s'.rest)
    (hcounts : ∀ pg, s'.allocs pg = s'.frees pg + if (s'.pipe pg).isSome then 1 else 0)
    (hpc : PcOk (s'.ofile p) (s'.pc p)) : Inv R s' := by
  have hnew : ∀ a np i, s'.pc a = .fork np i → (∃ j ≤ i, s.pc a = .fork np j) ∨
      a = p ∧ s.status np = .used ∧ (∀ fd, s.ofile np fd = none) ∧ ∀ q j, s.pc q ≠ .fork np j := by
    intro a np i ha
    by_cases hap : a = p
    · subst hap
      cases l.may with
      | alive _ hfork => exact (hfork np i ha).imp_right fun hf => ⟨rfl, hf⟩
      | filled _ hpc _ =>
        rw [hpc] at ha
        cases ha
    · rw [l.pc a hap] at ha
      exact .inl ⟨i, le_rfl, ha⟩
  refine ⟨?_, htyped, ?_, htokens, hpool, hcounts, ?_, ?_, ?_, ?_, ?_⟩
  · intro f
    have howed := owed_change f l.pc l.ofile
    have := hrefs f
    rw [h.ref f] at this
    omega
  · intro q f hf
    by_cases hq : q = p
    · subst hq
      exact hfresh f hf
    · rw [l.pc q hq] at hf
      rcases l.file f with heq | hnot
      · rw [heq]
        exact h.fresh q f hf
      · exact absurd hf (hnot q hq)
  · intro q
    by_cases hq : q = p
    · subst hq
      exact hpc
    · rw [l.pc q hq, l.ofile q hq]
      exact h.pcs q
  · intro q np i hq
    rw [l.status]
    have hold : s.status np = .used ∧ ∀ k : Fd, i ≤ k.val → s.ofile np k = none := by
      rcases hnew q np i hq with ⟨j, hji, hq'⟩ | ⟨-, hused, hnone, -⟩
      · exact ⟨(h.forked q np j hq').1, fun k hk => (h.forked q np j hq').2 k (hji.trans hk)⟩
      · exact ⟨hused, fun k _ => hnone k⟩
    refine ⟨hold.1, ?_⟩
    by_cases hnp : np = p
    · subst hnp
      cases l.may with
      | alive halive _ => exact absurd (halive.symm.trans hold.1) (by simp)
      | filled _ hpc ho =>
        have hqp : q ≠ np := by
          rintro rfl
          rw [hpc] at hq
          cases hq
        exact ho q i ((l.pc q hqp).symm.trans hq)
    · rw [l.ofile np hnp]
      exact hold.2
  · intro q r np i j hq hr
    rcases hnew q np i hq with ⟨i', -, hq'⟩ | ⟨rfl, -, -, hnone⟩
    · rcases hnew r np j hr with ⟨j', -, hr'⟩ | ⟨rfl, -, -, hnone⟩
      · exact h.forks q r np i' j' hq' hr'
      · exact absurd hq' (hnone q i')
    · rcases hnew r np j hr with ⟨j', -, hr'⟩ | ⟨rfl, -⟩
      · exact absurd hr' (hnone r j')
      · rfl
  · intro q hq
    rw [l.status] at hq
    by_cases hqp : q = p
    · subst hqp
      cases l.may with
      | alive halive _ => exact absurd halive hq
      | filled _ hpc _ => exact hpc
    · rw [l.pc q hqp]
      exact h.idle q hq
  · intro q hq
    rw [l.status] at hq
    have hqp : q ≠ p := by
      rintro rfl
      cases l.may with
      | alive halive _ => simp [halive] at hq
      | filled hused _ _ => simp [hused] at hq
    rw [l.ofile q hqp]
    exact h.empty q hq

theorem Inv.not_forked (h : Inv R s) (hp : s.status p ≠ .used) (q : Proc) (i : ℕ) :
    s.pc q ≠ .fork p i := fun hq => hp (h.forked q p i hq).1

theorem Inv.setStatus (h : Inv R s) {st : Status} (hfork : ∀ q i, s.pc q ≠ .fork p i)
    (hidle : st ≠ .alive → s.pc p = .user)
    (hempty : st = .unused ∨ st = .zombie → ∀ fd, s.ofile p fd = none) :
    Inv R { s with status := Function.update s.status p st } := by
  have hstatus : ∀ q, q ≠ p → Function.update s.status p st q = s.status q :=
    fun q hq => Function.update_of_ne hq _ _
  refine ⟨h.ref, h.typed, h.fresh, h.tokens, h.pool, h.counts, h.pcs, ?_, h.forks, ?_, ?_⟩
  · intro q np i hq
    have hnp : np ≠ p := by
      rintro rfl
      exact hfork q i hq
    dsimp only
    rw [hstatus np hnp]
    exact h.forked q np i hq
  · intro q hq
    dsimp only at hq
    by_cases hqp : q = p
    · subst hqp
      rw [Function.update_self] at hq
      exact hidle hq
    · rw [hstatus q hqp] at hq
      exact h.idle q hq
  · intro q hq
    dsimp only at hq
    by_cases hqp : q = p
    · subst hqp
      rw [Function.update_self] at hq
      exact hempty hq
    · rw [hstatus q hqp] at hq
      exact h.empty q hq

end Step

end Xv6.File
