import Xv6.Lib.TransSys
import Xv6.Log.Ops
import Mathlib.Data.Finset.Card

/-! # Log space: what `begin_op` admits and what `log_write` has room for

Any number of operations run between their `begin_op` and `end_op`; each logs at most
`MAXOPBLOCKS` distinct blocks. The image is the one `mkfs` builds: `sb.nlog = LOGSIZE`, the header
block included, so that `log.size - 1` data slots are left while `begin_op` counts `LOGSIZE`.
`log_write_panics_iff` says when the missing slot is hit.
-/

namespace Xv6.Reserve
open Xv6
set_option autoImplicit false

/-! ## Operations and the log -/

/-- An operation between its `begin_op` and its `end_op`, with the blocks it has logged so far. -/
structure Op where
  id : ℕ
  blocks : List ℕ
  deriving DecidableEq, Repr

structure State where
  log : Log
  ops : List Op
  deriving DecidableEq, Repr

inductive Event where
  | beginOp (i : ℕ)
  | logWrite (i b : ℕ)
  | endOp (i : ℕ)
  | commit
  deriving DecidableEq, Repr

def boot : State := ⟨Log.init LOGSIZE, []⟩

/-- Operation `i` is running, and after logging `b` it has still logged at most `MAXOPBLOCKS`
distinct blocks: the calls of `log_write` that the reservation is meant for. -/
def Allowed (s : State) (i b : ℕ) : Prop :=
  ∃ o ∈ s.ops, o.id = i ∧ (o.blocks.insert b).length ≤ MAXOPBLOCKS

instance (s : State) (i b : ℕ) : Decidable (Allowed s i b) :=
  inferInstanceAs (Decidable (∃ o ∈ s.ops, o.id = i ∧ (o.blocks.insert b).length ≤ MAXOPBLOCKS))

def record (ops : List Op) (i b : ℕ) : List Op :=
  ops.map fun o => if o.id = i then { o with blocks := o.blocks.insert b } else o

/-- One event. `none`: the event does not happen here (`begin_op` sleeps, the operation is not
running, it would log more than it may). An `error` is the panic of the function called. -/
def step (s : State) : Event → Option (Except String State)
  | .beginOp i =>
    if s.ops.any (·.id = i) then none
    else s.log.beginOp.map fun l => .ok ⟨l, ⟨i, []⟩ :: s.ops⟩
  | .logWrite i b =>
    if Allowed s i b then
      some <| (s.log.logWrite b).map fun r => ⟨r.1, record s.ops i b⟩
    else none
  | .endOp i =>
    if s.ops.any (·.id = i) then
      some <| s.log.endOp.map fun r => ⟨r.1, s.ops.eraseP (·.id = i)⟩
    else none
  | .commit =>
    -- `commit` clears `lh.n`, then `end_op` clears `committing`
    if s.log.committing then some (.ok ⟨s.log.clear.endCommit, s.ops⟩) else none

def sys : TransSys State Event where
  init := fun s => s = boot
  step := fun s e s' => step s e = some (.ok s')

/-! ## Commit groups of an event sequence -/

/-- The number of open operations and the blocks logged in the group they belong to. A group ends
with the `end_op` that leaves no operation open. -/
def groupStep : ℕ × Finset ℕ → Event → ℕ × Finset ℕ
  | (k, B), .beginOp _ => (k + 1, B)
  | (k, B), .logWrite _ b => (k, insert b B)
  | (k, B), .endOp _ => if k - 1 = 0 then (0, ∅) else (k - 1, B)
  | g, .commit => g

def groupBlocks (es : List Event) : Finset ℕ := (es.foldl groupStep (0, ∅)).2

/-! ## The invariant of a run -/

/-- The log against the group state of the events so far: the slots in use are the distinct blocks
of the group. -/
structure Tracks (s : State) (g : ℕ × Finset ℕ) : Prop where
  size : s.log.size = LOGSIZE
  outstanding : s.log.outstanding = s.ops.length
  opened : g.1 = s.ops.length
  nodup : s.log.lh.Nodup
  idle : s.log.committing = true → s.ops = []
  blocks : s.log.committing = false → s.log.lh.toFinset = g.2
  closed : s.log.committing = true → g.2 = ∅

theorem boot_tracks : Tracks boot (0, ∅) where
  size := rfl
  outstanding := rfl
  opened := rfl
  nodup := List.nodup_nil
  idle := by intro h; cases h
  blocks := by intro _; rfl
  closed := by intro h; cases h

variable {s s' : State} {g : ℕ × Finset ℕ} {i : ℕ}

section
variable (h : Tracks s g)
include h

theorem Tracks.length_eq (hc : s.log.committing = false) : s.log.lh.length = g.2.card := by
  rw [← h.blocks hc, List.toFinset_card_of_nodup h.nodup]

theorem Allowed.open {b : ℕ} (ha : Allowed s i b) :
    s.log.committing = false ∧ 1 ≤ s.log.outstanding := by
  obtain ⟨o, ho, -⟩ := ha
  constructor
  · by_contra hc
    have hnil := h.idle (by simpa using hc)
    rw [hnil] at ho
    cases ho
  · rw [h.outstanding]
    exact List.length_pos_of_mem ho

theorem tracks_beginOp (hs : step s (.beginOp i) = some (.ok s')) :
    Tracks s' (groupStep g (.beginOp i)) := by
  simp only [step] at hs
  split at hs
  · cases hs
  obtain ⟨l, hl, he⟩ := Option.map_eq_some_iff.mp hs
  obtain ⟨hc, -, rfl⟩ := Log.beginOp_eq_some hl
  cases he
  have hidle : ¬ s.log.committing = true := by simp [hc]
  exact {
    size := h.size
    outstanding := by simp [h.outstanding]
    opened := by simp [groupStep, h.opened]
    nodup := h.nodup
    idle := fun h' => absurd h' hidle
    blocks := h.blocks
    closed := h.closed }

theorem tracks_logWrite {b : ℕ} (hs : step s (.logWrite i b) = some (.ok s')) :
    Tracks s' (groupStep g (.logWrite i b)) := by
  simp only [step] at hs
  split at hs
  next ha =>
    have hopen := ha.open h
    have hidle : ¬ s.log.committing = true := by simp [hopen.1]
    cases hw : s.log.logWrite b with
    | error e => rw [hw] at hs; cases hs
    | ok r =>
      obtain ⟨l, new⟩ := r
      rw [hw] at hs
      cases hs
      have hlen : (record s.ops i b).length = s.ops.length := List.length_map ..
      obtain ⟨hsz, hop, hcm, -⟩ := Log.logWrite_frame hw
      have hidle' : ¬ l.committing = true := by rw [hcm]; exact hidle
      exact {
        size := hsz.trans h.size
        outstanding := by rw [hop, hlen]; exact h.outstanding
        opened := by rw [hlen]; exact h.opened
        nodup := Log.logWrite_nodup hw h.nodup
        idle := fun h' => absurd h' hidle'
        blocks := fun _ => by
          ext x
          rw [List.mem_toFinset, Log.logWrite_mem hw, ← List.mem_toFinset, h.blocks hopen.1]
          simp [groupStep]
        closed := fun h' => absurd h' hidle' }
  · cases hs

theorem tracks_endOp (hs : step s (.endOp i) = some (.ok s')) :
    Tracks s' (groupStep g (.endOp i)) := by
  simp only [step] at hs
  split at hs
  next ha =>
    obtain ⟨o, ho, hid⟩ := List.any_eq_true.mp ha
    have hlen : (s.ops.eraseP fun o => decide (o.id = i)).length = s.ops.length - 1 :=
      List.length_eraseP_of_mem ho hid
    have hg1 := h.opened
    have ho1 := h.outstanding
    cases hw : s.log.endOp with
    | error e => rw [hw] at hs; cases hs
    | ok r =>
      obtain ⟨l, c⟩ := r
      rw [hw] at hs
      cases hs
      obtain ⟨hc, ⟨hz, -, rfl⟩ | ⟨hnz, -, rfl⟩⟩ := Log.endOp_eq_ok hw
      · -- the last operation closes the group
        have hg : groupStep g (.endOp i) = (0, ∅) := by
          simp only [groupStep]
          rw [if_pos (by omega)]
        rw [hg]
        exact {
          size := h.size
          outstanding := by simp only [hlen]; omega
          opened := by simp only [hlen]; omega
          nodup := h.nodup
          idle := fun _ => List.eq_nil_of_length_eq_zero (by simp only [hlen]; omega)
          blocks := fun h' => by cases h'
          closed := fun _ => rfl }
      · have hg : groupStep g (.endOp i) = (g.1 - 1, g.2) := by
          simp only [groupStep]
          rw [if_neg (by omega)]
        have hidle : ¬ s.log.committing = true := by simp [hc]
        rw [hg]
        exact {
          size := h.size
          outstanding := by simp only [hlen]; omega
          opened := by simp only [hlen]; omega
          nodup := h.nodup
          idle := fun h' => absurd h' hidle
          blocks := h.blocks
          closed := fun h' => absurd h' hidle }
  · cases hs

theorem tracks_commit (hs : step s .commit = some (.ok s')) : Tracks s' (groupStep g .commit) := by
  simp only [step] at hs
  split at hs
  next hc =>
    cases hs
    exact {
      size := h.size
      outstanding := h.outstanding
      opened := h.opened
      nodup := List.nodup_nil
      idle := fun h' => by cases h'
      blocks := fun _ => (h.closed hc).symm
      closed := fun h' => by cases h' }
  · cases hs

theorem tracks_step {e : Event} (hs : step s e = some (.ok s')) : Tracks s' (groupStep g e) := by
  cases e with
  | beginOp i => exact tracks_beginOp h hs
  | logWrite i b => exact tracks_logWrite h hs
  | endOp i => exact tracks_endOp h hs
  | commit => exact tracks_commit h hs

end

theorem tracks_run {t : State} {es : List Event} (hr : sys.Run s es t) (h : Tracks s g) :
    Tracks t (es.foldl groupStep g) := by
  induction hr generalizing g with
  | nil => exact h
  | cons hs _ ih => exact ih (tracks_step h hs)

/-! ## When the log is too small -/

/-- After any run, a call of `log_write` by an operation inside its reservation panics exactly when
the group of the operation has already logged `LOGSIZE - 1` distinct blocks: the header block takes
the slot that `begin_op` gave away, and the test comes before the search for absorption. -/
theorem log_write_panics_iff (es : List Event) (s : State) (hr : sys.Run boot es s) (i b : ℕ)
    (ha : Allowed s i b) :
    step s (.logWrite i b) = some (.error "too big a transaction") ↔
      LOGSIZE - 1 ≤ (groupBlocks es).card := by
  have h : Tracks s (es.foldl groupStep (0, ∅)) := tracks_run hr boot_tracks
  obtain ⟨hc, ho⟩ := ha.open h
  have hn : s.log.lh.length = (groupBlocks es).card := h.length_eq hc
  have hsz := h.size
  rw [← hn]
  simp only [step, if_pos ha, Log.logWrite]
  constructor
  · intro hp
    by_contra hlt
    rw [if_neg (by omega), if_neg (by omega)] at hp
    split at hp <;> cases hp
  · intro hge
    rw [if_pos (by omega)]
    rfl

def stepOk (s : State) (e : Event) : Option State :=
  match step s e with
  | some (.ok s') => some s'
  | _ => none

theorem run_of_exec {t : State} {es : List Event} (h : TransSys.exec stepOk s es = some t) :
    sys.Run s es t := by
  refine TransSys.Run.of_exec (fun s e s' hs => ?_) h
  unfold stepOk at hs
  split at hs
  · next s1 h1 =>
    cases hs
    exact h1
  · cases hs

/-- Three operations are admitted together and log `n` blocks, ten each before the next one starts.
-/
def threeOps (n : ℕ) : List Event :=
  [Event.beginOp 0, .beginOp 1, .beginOp 2] ++
    (List.range n).map fun k => Event.logWrite (k / 10) (100 + k)

theorem log_write_panics_iff_threeOps :
    (∃ s, sys.Run boot (threeOps 28) s ∧
      step s (.logWrite 2 128) ≠ some (.error "too big a transaction")) ∧
    ∃ s, sys.Run boot (threeOps 29) s ∧
      step s (.logWrite 2 129) = some (.error "too big a transaction") := by
  have hexec : ∀ n ∈ [28, 29], (TransSys.exec stepOk boot (threeOps n)).any (fun s =>
      decide (Allowed s 2 (100 + n))) = true := by decide +kernel
  have hcard : (groupBlocks (threeOps 28)).card = 28 ∧ (groupBlocks (threeOps 29)).card = 29 := by
    decide +kernel
  constructor
  · obtain ⟨s, hs, ha⟩ := (Option.any_eq_true _ _).1 (hexec 28 (by decide))
    refine ⟨s, run_of_exec hs, ?_⟩
    rw [Ne, log_write_panics_iff _ s (run_of_exec hs) 2 128 (of_decide_eq_true ha), hcard.1]
    decide
  · obtain ⟨s, hs, ha⟩ := (Option.any_eq_true _ _).1 (hexec 29 (by decide))
    refine ⟨s, run_of_exec hs, ?_⟩
    rw [log_write_panics_iff _ s (run_of_exec hs) 2 129 (of_decide_eq_true ha), hcard.2]
    decide

theorem log_write_too_big :
    ¬ ∀ (es : List Event) (s : State), sys.Run boot es s → ∀ i b : ℕ, Allowed s i b →
      step s (.logWrite i b) ≠ some (.error "too big a transaction") := by
  intro h
  have he : ∃ s, TransSys.exec stepOk boot (threeOps 29) = some s ∧ Allowed s 2 129 ∧
      step s (.logWrite 2 129) = some (.error "too big a transaction") := by
    refine ⟨⟨⟨30, 3, false, (List.range 29).map (100 + ·)⟩,
      [⟨2, ((List.range 9).map (120 + ·)).reverse⟩, ⟨1, ((List.range 10).map (110 + ·)).reverse⟩,
        ⟨0, ((List.range 10).map (100 + ·)).reverse⟩]⟩, ?_, ?_, ?_⟩ <;> decide
  obtain ⟨s, hs, ha, hp⟩ := he
  exact h (threeOps 29) s (run_of_exec hs) 2 129 ha hp

end Xv6.Reserve
