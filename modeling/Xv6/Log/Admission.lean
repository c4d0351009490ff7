import Xv6.Lib.CountOf
import Xv6.Lib.Monitor
import Xv6.Log.Ops

/-! # Admission to the log

`begin_op`, `log_write`, `end_op` and `commit` of `kernel/log.c`, called by any number of processes.
The code is a monitor: `log.lock` is its spinlock and `&log` its channel. `commit` runs without the
lock, and clears the log there.
-/

namespace Xv6.Admission
set_option autoImplicit false
open Function (update comp_update)
open Monitor (Act)

inductive Place where
  | idle
  | beginOp
  | op
  | logWrite (blockno : ℕ)
  | endOp
  | commit
  | committed
  | woke
  deriving DecidableEq

inductive Call where
  | beginOp
  | logWrite (blockno : ℕ)
  | endOp
  | commit
  deriving DecidableEq

/-- `commit`, as far as `struct log` notices it. -/
def commit (l : Log) : Log := if l.lh.length > 0 then l.clear else l

def call (l : Log) : Call → Place → Option (Log × Place)
  | .beginOp, .idle => some (l, .beginOp)
  | .logWrite b, .op => some (l, .logWrite b)
  | .endOp, .op => some (l, .endOp)
  | .commit, .commit => some (commit l, .committed)
  | _, _ => none

def act (l : Log) : Place → Outcome String (Act Log Place)
  | .beginOp =>
    match l.beginOp with
    | none => .ok (.sleep .beginOp)
    | some l => .ok (.leave l .op)
  | .logWrite b =>
    match l.logWrite b with
    | .error e => .fail e
    | .ok (l, _) => .ok (.leave l .op)
  | .endOp =>
    match l.endOp with
    | .error e => .fail e
    | .ok (l, true) => .ok (.leave l .commit)
    | .ok (l, false) => .ok (.wake l .woke)
  | .committed => .ok (.wake l.endCommit .woke)
  | .woke => .ok (.leave l .idle)
  | .idle | .op | .commit => .blocked

def program (n : ℕ) : Monitor.Program n Log Place Call String where
  enters x := x ≠ .idle ∧ x ≠ .op ∧ x ≠ .commit
  free c _ l x := call l c x
  act _ l x := act l x

def sys (n size : ℕ) : TransSys (Monitor.State n Log Place) (Monitor.Event n Call) :=
  Monitor.sys (program n) (Log.init size) .idle

/-! ## What the log counts -/

inductive Role where
  | op
  | commit
  deriving DecidableEq

def Place.role : Place → Option Role
  | op | logWrite _ | endOp => some .op
  | commit | committed => some .commit
  | idle | beginOp | woke => none

def number {n : ℕ} (pl : Fin n → Place) (r : Role) : ℕ := countOf (fun p => (pl p).role) r

def Ready (l : Log) : Prop :=
  l.committing = false ∧ l.lh.length + (l.outstanding + 1) * MAXOPBLOCKS ≤ LOGSIZE

variable {n size : ℕ} {l l' : Log} {pl : Fin n → Place} {p : Fin n} {x : Place}

structure Counts (l : Log) (pl : Fin n → Place) : Prop where
  outstanding : l.outstanding = number pl .op
  committing : number pl .commit = if l.committing then 1 else 0
  alone : l.committing = true → l.outstanding = 0

theorem number_update (pl : Fin n → Place) (p : Fin n) (x : Place) (r : Role) :
    number (update pl p x) r + (if (pl p).role = some r then 1 else 0) =
      number pl r + (if x.role = some r then 1 else 0) := by
  have hrole : (fun q => (update pl p x q).role) =
      update (fun q => (pl q).role) p x.role := comp_update Place.role pl p x
  rw [number, hrole]
  exact countOf_update _ _ _ _

theorem number_pos {r : Role} (hp : (pl p).role = some r) : 0 < number pl r := countOf_pos hp

theorem Counts.not_committing (h : Counts l pl) (hp : (pl p).role = some .op) :
    l.committing = false := by
  cases hc : l.committing with
  | false => rfl
  | true =>
    have hzero := h.alone hc
    have hpos := number_pos hp
    rw [h.outstanding] at hzero
    omega

theorem Counts.committing_of_role (h : Counts l pl) (hp : (pl p).role = some .commit) :
    l.committing = true := by
  cases hc : l.committing with
  | true => rfl
  | false =>
    have hpos := number_pos hp
    rw [h.committing, hc] at hpos
    exact absurd hpos (by decide)

theorem Counts.move (h : Counts l pl) (hx : x.role = (pl p).role)
    (ho : l'.outstanding = l.outstanding) (hc : l'.committing = l.committing) :
    Counts l' (update pl p x) := by
  have hnum : ∀ r, number (update pl p x) r = number pl r := by
    intro r
    have hu := number_update pl p x r
    rw [hx] at hu
    omega
  exact ⟨by rw [ho, hnum, h.outstanding], by rw [hc, hnum, h.committing], by
    rw [ho, hc]
    exact h.alone⟩

/-! ## The steps -/

theorem Counts.begin_op (h : Counts l pl) (hp : pl p = .beginOp) (hl : l.beginOp = some l') :
    Counts l' (update pl p .op) ∧ (Ready l' → Ready l) := by
  obtain ⟨hc, -, rfl⟩ := Log.beginOp_eq_some hl
  have hop := number_update pl p .op .op
  have hcommit := number_update pl p .op .commit
  have ho := h.outstanding
  have hcs := h.committing
  simp only [hp, Place.role, reduceCtorEq, if_false, if_true, Option.some.injEq] at hop hcommit
  refine ⟨⟨?_, ?_, ?_⟩, ?_⟩
  · change l.outstanding + 1 = _
    omega
  · change _ = if l.committing then 1 else 0
    omega
  · intro hc'
    exact absurd (hc.symm.trans hc') (by decide)
  · rintro ⟨-, hroom⟩
    refine ⟨hc, ?_⟩
    have hroom' : l.lh.length + (l.outstanding + 1 + 1) * MAXOPBLOCKS ≤ LOGSIZE := hroom
    rw [Nat.add_mul] at hroom'
    omega

theorem not_ready_of_beginOp (hl : l.beginOp = none) : ¬ Ready l := by
  rintro ⟨hc, hroom⟩
  rw [Log.beginOp, hc, if_neg (by decide), if_neg (by omega)] at hl
  cases hl

theorem Counts.log_write (h : Counts l pl) {b : ℕ} {new : Bool} (hp : pl p = .logWrite b)
    (hl : l.logWrite b = .ok (l', new)) :
    Counts l' (update pl p .op) ∧ (Ready l' → Ready l) := by
  obtain ⟨-, ho, hc, -⟩ := Log.logWrite_frame hl
  have hlen : l.lh.length ≤ l'.lh.length := by
    obtain ⟨-, -, -, ⟨-, -, rfl⟩ | ⟨-, -, rfl⟩⟩ := Log.logWrite_eq_ok hl
    · exact le_rfl
    · simp
  refine ⟨h.move (by rw [hp]; rfl) ho hc, ?_⟩
  rintro ⟨hc', hroom⟩
  rw [ho] at hroom
  exact ⟨hc.symm.trans hc', by omega⟩

theorem Counts.end_last (h : Counts l pl) (hp : pl p = .endOp) (hl : l.endOp = .ok (l', true)) :
    Counts l' (update pl p .commit) ∧ (Ready l' → Ready l) := by
  obtain ⟨hc, ⟨hlast, -, rfl⟩ | ⟨-, hfalse, -⟩⟩ := Log.endOp_eq_ok hl
  · have hop := number_update pl p .commit .op
    have hcommit := number_update pl p .commit .commit
    have ho := h.outstanding
    have hcs := h.committing
    simp only [hp, hc, Place.role, reduceCtorEq, Bool.false_eq_true, if_false, if_true,
      Option.some.injEq] at hop hcommit hcs
    refine ⟨⟨?_, ?_, fun _ => rfl⟩, ?_⟩
    · change 0 = _
      omega
    · change _ = 1
      omega
    · rintro ⟨hc', -⟩
      cases hc'
  · cases hfalse

theorem Counts.end_other (h : Counts l pl) (hp : pl p = .endOp) (hl : l.endOp = .ok (l', false)) :
    Counts l' (update pl p .woke) := by
  obtain ⟨hc, ⟨-, htrue, -⟩ | ⟨-, -, rfl⟩⟩ := Log.endOp_eq_ok hl
  · cases htrue
  · have hop := number_update pl p .woke .op
    have hcommit := number_update pl p .woke .commit
    have ho := h.outstanding
    have hcs := h.committing
    simp only [hp, Place.role, reduceCtorEq, if_false, if_true, Option.some.injEq] at hop hcommit
    refine ⟨?_, ?_, ?_⟩
    · change l.outstanding - 1 = _
      omega
    · change _ = if l.committing then 1 else 0
      omega
    · intro hc'
      exact absurd (hc.symm.trans hc') (by decide)

theorem Counts.end_commit (h : Counts l pl) (hp : pl p = .committed) :
    Counts l.endCommit (update pl p .woke) := by
  have hc := h.committing_of_role (by rw [hp]; rfl)
  have hop := number_update pl p .woke .op
  have hcommit := number_update pl p .woke .commit
  have ho := h.outstanding
  have hcs := h.committing
  simp only [hp, hc, Place.role, reduceCtorEq, if_false, if_true, Option.some.injEq]
    at hop hcommit hcs
  refine ⟨?_, ?_, nofun⟩
  · change l.outstanding = _
    omega
  · change _ = 0
    omega

theorem Counts.call (h : Counts l pl) {c : Call} (hfree : call l c (pl p) = some (l', x)) :
    Counts l' (update pl p x) ∧ (Ready l' → Ready l) := by
  unfold Admission.call at hfree
  split at hfree
  · next hp =>
    cases hfree
    exact ⟨h.move (by rw [hp]; rfl) rfl rfl, id⟩
  · next hp =>
    cases hfree
    exact ⟨h.move (by rw [hp]; rfl) rfl rfl, id⟩
  · next hp =>
    cases hfree
    exact ⟨h.move (by rw [hp]; rfl) rfl rfl, id⟩
  · next hp =>
    cases hfree
    have hsame : (commit l).outstanding = l.outstanding ∧ (commit l).committing = l.committing := by
      unfold commit
      split <;> exact ⟨rfl, rfl⟩
    refine ⟨h.move (by rw [hp]; rfl) hsame.1 hsame.2, ?_⟩
    -- the log is cleared without its lock, but nobody is admitted during a commit
    rintro ⟨hc, -⟩
    rw [hsame.2, h.committing_of_role (by rw [hp]; rfl)] at hc
    cases hc
  · cases hfree

theorem sound : (program n).Sound Counts Ready := by
  constructor
  · intro c p l pl l' x h hfree
    exact h.call hfree
  · intro p l pl a h hact
    simp only [program] at hact
    cases hp : pl p with
    | idle | op | commit =>
      rw [hp] at hact
      cases hact
    | beginOp =>
      rw [hp, act] at hact
      split at hact
      · next hl =>
        cases hact
        exact ⟨h.move (by rw [hp]) rfl rfl, not_ready_of_beginOp hl⟩
      · next l2 hl =>
        cases hact
        exact h.begin_op hp hl
    | logWrite b =>
      rw [hp, act] at hact
      split at hact
      · cases hact
      · next hl =>
        cases hact
        exact h.log_write hp hl
    | endOp =>
      rw [hp, act] at hact
      split at hact
      · cases hact
      · next hl =>
        cases hact
        exact h.end_last hp hl
      · next hl =>
        cases hact
        exact h.end_other hp hl
    | committed =>
      rw [hp] at hact
      cases hact
      exact h.end_commit hp
    | woke =>
      rw [hp] at hact
      cases hact
      exact ⟨h.move (by rw [hp]; rfl) rfl rfl, id⟩

/-! ## In every run -/

theorem ok_of_reachable {s : Monitor.State n Log Place} (hs : (sys n size).Reachable s) :
    Monitor.Ok Counts Ready s := by
  refine sound.ok ?_ hs
  have hzero : ∀ r, number (fun _ : Fin n => Place.idle) r = 0 := by
    intro r
    rw [number, countOf_eq_zero]
    simp [Place.role]
  exact ⟨(hzero .op).symm, hzero .commit, fun _ => rfl⟩

theorem endOp_ne_error (h : Counts l pl) (hp : pl p = .endOp) (e : String) :
    l.endOp ≠ .error e := by
  have hc := h.not_committing (by rw [hp]; rfl)
  simp only [Log.endOp, hc, Bool.false_eq_true, if_false]
  split <;> simp

/-- No process sleeps on `&log` with `log.lock` free while it would be admitted;
`log.outstanding` is the number of operations; during a commit there is none, so nobody is in
`log_write`; and `end_op` does not panic. -/
theorem admission {s : Monitor.State n Log Place} (hs : (sys n size).Reachable s) :
    (s.lock = none → ∀ q x, s.mode q = .sleeping x → ¬ (s.data.committing = false ∧
      s.data.lh.length + (s.data.outstanding + 1) * MAXOPBLOCKS ≤ LOGSIZE)) ∧
    s.data.outstanding = number s.place .op ∧
    (s.data.committing = true → s.data.outstanding = 0 ∧ ∀ p b, s.place p ≠ .logWrite b) ∧
    ∀ p e, s.mode p = .inside .endOp → Monitor.step (program n) s (.act p) ≠ .fail e := by
  have hok := ok_of_reachable hs
  refine ⟨fun hfree q x hq => hok.not_ready_of_free hfree hq, hok.data.outstanding, ?_, ?_⟩
  · intro hc
    refine ⟨hok.data.alone hc, ?_⟩
    intro p b hp
    have hnot := hok.data.not_committing (by rw [hp]; rfl)
    exact absurd (hc.symm.trans hnot) (by decide)
  · intro p e hp hfail
    have hplace : s.place p = .endOp := by rw [Monitor.State.place, hp]; rfl
    have herr := endOp_ne_error hok.data hplace
    simp only [Monitor.step, hp, program, act] at hfail
    generalize s.data.endOp = r at hfail herr
    cases r with
    | error e' => exact herr e' rfl
    | ok lb =>
      obtain ⟨l, b⟩ := lb
      cases b <;> cases hfail

/-- Process 0 writes one block and is about to commit; process 1 has come to `begin_op` and
sleeps. -/
def commitAndWait : List (Monitor.Event 2 Call) :=
  [.free 0 .beginOp, .enter 0, .act 0, .free 0 (.logWrite 33), .enter 0, .act 0,
    .free 0 .endOp, .enter 0, .act 0, .free 1 .beginOp, .enter 1, .act 1, .doze 1]

theorem admission_commitAndWait : ∃ s : Monitor.State 2 Log Place,
    (sys 2 LOGSIZE).Reachable s ∧ s.lock = none ∧ s.mode 1 = .sleeping .beginOp ∧
    s.data.committing = true ∧ s.data.outstanding = 0 := by
  have hrun : ((TransSys.exec (fun s e => (Monitor.step (program 2) s e).result)
      ⟨Log.init LOGSIZE, none, fun _ => .out .idle⟩ commitAndWait).map fun s =>
        (s.lock, s.mode 1, s.data.committing)) =
      some (none, .sleeping .beginOp, true) := by decide
  obtain ⟨s, hs, h⟩ := Option.map_eq_some_iff.mp hrun
  simp only [Prod.mk.injEq] at h
  obtain ⟨hlock, hsleeps, hc⟩ := h
  have hreach : (sys 2 LOGSIZE).Reachable s :=
    (TransSys.Reachable.init rfl).run (.of_exec (fun _ _ _ => Outcome.result_eq_some.mp) hs)
  exact ⟨s, hreach, hlock, hsleeps, hc, ((admission hreach).2.2.1 hc).1⟩

end Xv6.Admission
