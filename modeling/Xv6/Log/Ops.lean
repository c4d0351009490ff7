import Xv6.Param
import Mathlib.Data.List.Nodup

/-! # The in-memory log and its header block

`struct log` of `kernel/log.c` and the sections of `begin_op`, `log_write` and `end_op` that run
under `log.lock`, then the on-disk form of `struct logheader`. `lh.block[0..n-1]` is the list `lh`
and `lh.n` its length.
-/

namespace Xv6
set_option autoImplicit false

/-! ## `struct log` -/

structure Log where
  size : ℕ
  outstanding : ℕ
  committing : Bool
  lh : List ℕ
  deriving DecidableEq, Repr

def Log.init (size : ℕ) : Log := ⟨size, 0, false, []⟩

namespace Log

/-- One pass of the loop of `begin_op`; `none` is the pass that goes to sleep on `&log`. -/
def beginOp (l : Log) : Option Log :=
  if l.committing then none
  else if l.lh.length + (l.outstanding + 1) * MAXOPBLOCKS > LOGSIZE then none
  else some { l with outstanding := l.outstanding + 1 }

/-- `log_write`. The flag says that the block is new to the log, so that the buffer is pinned. -/
def logWrite (l : Log) (blockno : ℕ) : Except String (Log × Bool) :=
  if l.lh.length ≥ LOGSIZE ∨ l.lh.length ≥ l.size - 1 then .error "too big a transaction"
  else if l.outstanding < 1 then .error "log_write outside of trans"
  -- log absorption: a block that is already listed keeps its slot
  else if blockno ∈ l.lh then .ok (l, false)
  else .ok ({ l with lh := l.lh ++ [blockno] }, true)

/-- The first critical section of `end_op`. The flag is `do_commit`. -/
def endOp (l : Log) : Except String (Log × Bool) :=
  let l := { l with outstanding := l.outstanding - 1 }
  if l.committing then .error "log.committing"
  else if l.outstanding = 0 then .ok ({ l with committing := true }, true)
  else .ok (l, false)

def clear (l : Log) : Log := { l with lh := [] }

def endCommit (l : Log) : Log := { l with committing := false }

variable {l l' : Log} {b : ℕ} {new : Bool}

theorem beginOp_eq_some (h : l.beginOp = some l') :
    l.committing = false ∧ l.lh.length + (l.outstanding + 1) * MAXOPBLOCKS ≤ LOGSIZE ∧
      l' = { l with outstanding := l.outstanding + 1 } := by
  unfold beginOp at h
  split at h
  · cases h
  · next hc =>
    split at h
    · cases h
    · next hn => exact ⟨by simpa using hc, by omega, (Option.some.inj h).symm⟩

section
variable (h : l.logWrite b = .ok (l', new))
include h

theorem logWrite_eq_ok : l.lh.length < LOGSIZE ∧ l.lh.length < l.size - 1 ∧ 1 ≤ l.outstanding ∧
      ((b ∈ l.lh ∧ new = false ∧ l' = l) ∨
        (b ∉ l.lh ∧ new = true ∧ l' = { l with lh := l.lh ++ [b] })) := by
  unfold logWrite at h
  split at h
  · cases h
  next hn =>
  split at h
  · cases h
  next ho =>
  refine ⟨by omega, by omega, by omega, ?_⟩
  split at h
  · next hb =>
    obtain ⟨rfl, rfl⟩ : l = l' ∧ false = new := by simpa using h
    exact .inl ⟨hb, rfl, rfl⟩
  · next hb =>
    obtain ⟨rfl, rfl⟩ : { l with lh := l.lh ++ [b] } = l' ∧ true = new := by simpa using h
    exact .inr ⟨hb, rfl, rfl⟩

theorem logWrite_mem (x : ℕ) : x ∈ l'.lh ↔ x = b ∨ x ∈ l.lh := by
  obtain ⟨-, -, -, ⟨hb, -, rfl⟩ | ⟨-, -, rfl⟩⟩ := logWrite_eq_ok h
  · exact ⟨.inr, fun hx => hx.elim (fun e => e ▸ hb) id⟩
  · simp [or_comm]

theorem logWrite_nodup (hn : l.lh.Nodup) : l'.lh.Nodup := by
  obtain ⟨-, -, -, ⟨-, -, rfl⟩ | ⟨hb, -, rfl⟩⟩ := logWrite_eq_ok h
  · exact hn
  · refine List.nodup_append.mpr ⟨hn, List.nodup_singleton b, ?_⟩
    intro x hx y hy hxy
    obtain rfl := List.mem_singleton.mp hy
    exact hb (hxy ▸ hx)

theorem logWrite_frame :
    l'.size = l.size ∧ l'.outstanding = l.outstanding ∧ l'.committing = l.committing ∧
      l'.lh.length ≤ l.lh.length + 1 := by
  obtain ⟨-, -, -, ⟨-, -, rfl⟩ | ⟨-, -, rfl⟩⟩ := logWrite_eq_ok h
  · exact ⟨rfl, rfl, rfl, by omega⟩
  · exact ⟨rfl, rfl, rfl, by simp⟩

theorem logWrite_new : new = true ↔ b ∉ l.lh := by
  obtain ⟨-, -, -, ⟨hb, rfl, -⟩ | ⟨hb, rfl, -⟩⟩ := logWrite_eq_ok h <;> simp [hb]

end

theorem endOp_eq_ok {c : Bool} (h : l.endOp = .ok (l', c)) : l.committing = false ∧
      ((l.outstanding - 1 = 0 ∧ c = true ∧ l' = { l with outstanding := 0, committing := true }) ∨
        (l.outstanding - 1 ≠ 0 ∧ c = false ∧
          l' = { l with outstanding := l.outstanding - 1 })) := by
  simp only [endOp] at h
  split at h
  · cases h
  next hc =>
  refine ⟨by simpa using hc, ?_⟩
  split at h
  · next ho =>
    obtain ⟨rfl, rfl⟩ : { l with outstanding := l.outstanding - 1, committing := true } = l' ∧
      true = c := by simpa using h
    exact .inl ⟨ho, rfl, by simp [ho]⟩
  · next ho =>
    obtain ⟨rfl, rfl⟩ : { l with outstanding := l.outstanding - 1 } = l' ∧ false = c := by
      simpa using h
    exact .inr ⟨ho, rfl, rfl⟩

end Log

/-! ## The header block -/

def readHead (buf : Block) : List ℕ :=
  (List.range (buf.getWord 0)).map fun i => buf.getWord (i + 1)

/-- The loop `hb->block[i] = log.lh.block[i]`, with `i` counted in words of the block. -/
def storeBlocks : Block → ℕ → List ℕ → Block
  | buf, _, [] => buf
  | buf, i, x :: xs => storeBlocks (buf.setWord i x) (i + 1) xs

/-- `write_head`: the entries past `n` keep what the buffer held. -/
def writeHead (buf : Block) (lh : List ℕ) : Block :=
  storeBlocks (buf.setWord 0 lh.length) 1 lh

theorem storeBlocks_before (lh : List ℕ) (buf : Block) (i j : ℕ) (hj : j < i) :
    (storeBlocks buf i lh).getWord j = buf.getWord j := by
  induction lh generalizing buf i with
  | nil => rfl
  | cons x xs ih =>
    rw [storeBlocks, ih (buf.setWord i x) (i + 1) (by omega),
      ByteBlock.getWord_setWord_ne _ _ _ _ (by omega)]

theorem storeBlocks_get (lh : List ℕ) (buf : Block) (i k : ℕ) (hk : k < lh.length)
    (hfit : i + lh.length ≤ BSIZE / 4) :
    (storeBlocks buf i lh).getWord (i + k) = lh[k] % 4294967296 := by
  induction lh generalizing buf i k with
  | nil => simp at hk
  | cons x xs ih =>
    rw [storeBlocks]
    simp only [List.length_cons] at hk hfit
    cases k with
    | zero =>
      simp only [Nat.add_zero, List.getElem_cons_zero]
      rw [storeBlocks_before xs _ _ _ (by omega),
        ByteBlock.getWord_setWord_self _ _ _ (by unfold BSIZE at *; omega)]
    | succ k =>
      have h := ih (buf.setWord i x) (i + 1) k (by omega) (by omega)
      rw [show i + 1 + k = i + (k + 1) by omega] at h
      rw [h]
      rfl

theorem readHead_writeHead (buf : Block) (lh : List ℕ) (hlen : lh.length ≤ LOGSIZE)
    (hlt : ∀ b ∈ lh, b < 4294967296) : readHead (writeHead buf lh) = lh := by
  have hL : LOGSIZE = 30 := rfl
  have hB : BSIZE = 1024 := rfl
  have h0 : (writeHead buf lh).getWord 0 = lh.length := by
    unfold writeHead
    rw [storeBlocks_before _ _ _ _ (by omega), ByteBlock.getWord_setWord_self _ _ _ (by omega)]
    omega
  apply List.ext_getElem
  · simp [readHead, h0]
  · intro i h1 h2
    simp only [readHead, List.getElem_map, List.getElem_range]
    unfold writeHead
    rw [Nat.add_comm i 1, storeBlocks_get lh _ 1 i h2 (by omega)]
    exact Nat.mod_eq_of_lt (hlt _ (List.getElem_mem h2))

theorem readHead_writeHead_nil (buf : Block) : readHead (writeHead buf []) = [] :=
  readHead_writeHead buf [] (by decide) (by simp)

end Xv6
