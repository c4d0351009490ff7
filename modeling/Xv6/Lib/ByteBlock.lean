import Mathlib.Tactic.Ring
import Mathlib.Data.Nat.Bitwise

/-! # Fixed-size blocks of bytes and the little-endian words in them

A block of `n` bytes is a function from `Fin n`. `getWord b i` is the `i`-th 32-bit word, read
little-endian, and `setWord b i v` stores `v` there; both are total, a word that does not fit into
the block reads as 0 and is not stored.
-/

set_option autoImplicit false

abbrev ByteBlock (n : ℕ) := Fin n → UInt8

namespace ByteBlock
variable {n : ℕ}

def byte (b : ByteBlock n) (k : ℕ) : ℕ := if h : k < n then (b ⟨k, h⟩).toNat else 0

def fill (n : ℕ) (c : UInt8) : ByteBlock n := fun _ => c

def getWord (b : ByteBlock n) (i : ℕ) : ℕ :=
  b.byte (4*i) + 256 * b.byte (4*i+1) + 65536 * b.byte (4*i+2) + 16777216 * b.byte (4*i+3)

def setWord (b : ByteBlock n) (i v : ℕ) : ByteBlock n := fun k =>
  if k.val / 4 = i then UInt8.ofNat (v / 256 ^ (k.val % 4) % 256) else b k

theorem byte_setWord (b : ByteBlock n) (i v k : ℕ) (hk : k < n) :
    (b.setWord i v).byte k = if k / 4 = i then v / 256 ^ (k % 4) % 256 else b.byte k := by
  simp only [byte, hk, dif_pos, setWord]
  split
  · rw [UInt8.toNat_ofNat']
    omega
  · rfl

theorem getWord_setWord_self (b : ByteBlock n) (i v : ℕ) (hi : 4*i+3 < n) :
    (b.setWord i v).getWord i = v % 4294967296 := by
  have e0 : 4*i % 4 = 0 := by omega
  have e1 : (4*i+1) % 4 = 1 := by omega
  have e2 : (4*i+2) % 4 = 2 := by omega
  have e3 : (4*i+3) % 4 = 3 := by omega
  unfold getWord
  rw [byte_setWord _ _ _ _ (by omega), byte_setWord _ _ _ _ (by omega),
    byte_setWord _ _ _ _ (by omega), byte_setWord _ _ _ _ (by omega)]
  rw [if_pos (by omega), if_pos (by omega), if_pos (by omega), if_pos (by omega), e0, e1, e2, e3]
  norm_num
  omega

theorem getWord_setWord_ne (b : ByteBlock n) (i j v : ℕ) (hij : j ≠ i) :
    (b.setWord i v).getWord j = b.getWord j := by
  have hb : ∀ r < 4, (b.setWord i v).byte (4*j+r) = b.byte (4*j+r) := by
    intro r hr
    by_cases hk : 4*j+r < n
    · rw [byte_setWord _ _ _ _ hk, if_neg (by omega)]
    · simp [byte, hk]
  unfold getWord
  rw [hb 1 (by omega), hb 2 (by omega), hb 3 (by omega)]
  have h0 := hb 0 (by omega)
  rw [Nat.add_zero] at h0
  rw [h0]

theorem getWord_fill_zero (i : ℕ) : (fill n 0).getWord i = 0 := by
  have hb : ∀ k, (fill n 0).byte k = 0 := by
    intro k
    unfold byte fill
    split <;> rfl
  simp [getWord, hb]

end ByteBlock
