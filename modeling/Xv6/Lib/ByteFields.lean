import Xv6.Lib.ByteBlock

/-! # Other fields of a block of bytes

Half-words, runs of words, single bits, and ranges of bytes that are copied in or out.
-/

set_option autoImplicit false

namespace ByteBlock
variable {n : ℕ} {i j m : ℕ}

def getHalf (b : ByteBlock n) (i : ℕ) : ℕ := b.byte (2*i) + 256 * b.byte (2*i+1)

def setHalf (b : ByteBlock n) (i v : ℕ) : ByteBlock n := fun k =>
  if k.val / 2 = i then UInt8.ofNat (v / 256 ^ (k.val % 2) % 256) else b k

/-- Store `m` words from word number `i` on. -/
def setWords {m : ℕ} (b : ByteBlock n) (i : ℕ) (v : Fin m → ℕ) : ByteBlock n := fun k =>
  if h : i ≤ k.val / 4 ∧ k.val / 4 - i < m then
    UInt8.ofNat (v ⟨k.val / 4 - i, h.2⟩ / 256 ^ (k.val % 4) % 256)
  else b k

def getBit (b : ByteBlock n) (i : ℕ) : Bool :=
  if h : i / 8 < n then (b ⟨i / 8, h⟩).toBitVec.getLsbD (i % 8) else false

def setBit (b : ByteBlock n) (i : ℕ) (v : Bool) : ByteBlock n := fun k =>
  if k.val = i / 8 then
    let m := BitVec.twoPow 8 (i % 8)
    ⟨if v then (b k).toBitVec ||| m else (b k).toBitVec &&& ~~~m⟩
  else b k

def copy (b : ByteBlock n) (i m : ℕ) (src : ℕ → UInt8) : ByteBlock n := fun k =>
  if i ≤ k.val ∧ k.val < i + m then src (k.val - i) else b k

def slice (b : ByteBlock n) (i m : ℕ) : List UInt8 :=
  (List.range m).map fun k => UInt8.ofNat (b.byte (i + k))

/-! ## Reading back -/

theorem getWord_congr {b b' : ByteBlock n} (h : ∀ r < 4, b'.byte (4*i+r) = b.byte (4*i+r)) :
    b'.getWord i = b.getWord i := by
  have h0 := h 0 (by omega)
  rw [Nat.add_zero] at h0
  rw [getWord, getWord, h0, h 1 (by omega), h 2 (by omega), h 3 (by omega)]

theorem getWord_of_ge (b : ByteBlock n) (h : n ≤ 4*i) : b.getWord i = 0 := by
  have hbyte : ∀ k, 4*i ≤ k → b.byte k = 0 := by
    intro k hk
    exact dif_neg (by omega)
  rw [getWord, hbyte _ le_rfl, hbyte _ (by omega), hbyte _ (by omega), hbyte _ (by omega)]

theorem getHalf_congr {b b' : ByteBlock n} (h : ∀ r < 2, b'.byte (2*i+r) = b.byte (2*i+r)) :
    b'.getHalf i = b.getHalf i := by
  have h0 := h 0 (by omega)
  rw [Nat.add_zero] at h0
  rw [getHalf, getHalf, h0, h 1 (by omega)]

section
variable (b : ByteBlock n)
include b

theorem byte_setHalf (i v k : ℕ) : (b.setHalf i v).byte k =
      if k / 2 = i ∧ k < n then v / 256 ^ (k % 2) % 256 else b.byte k := by
  by_cases hk : k < n
  · simp only [byte, hk, dif_pos, setHalf, and_true]
    split
    · rw [UInt8.toNat_ofNat']
      omega
    · rfl
  · simp [byte, hk]

theorem byte_setWords (i : ℕ) (v : Fin m → ℕ) (k : ℕ) : (b.setWords i v).byte k =
      if h : (i ≤ k / 4 ∧ k / 4 - i < m) ∧ k < n then
        v ⟨k / 4 - i, h.1.2⟩ / 256 ^ (k % 4) % 256
      else b.byte k := by
  by_cases hk : k < n
  · simp only [byte, hk, dif_pos, setWords, and_true]
    split
    · rw [UInt8.toNat_ofNat']
      omega
    · rfl
  · simp [byte, hk]

theorem getHalf_setHalf_self (i v : ℕ) (hi : 2*i+1 < n) :
    (b.setHalf i v).getHalf i = v % 65536 := by
  rw [getHalf, byte_setHalf, byte_setHalf, if_pos (by omega), if_pos (by omega),
    show 2*i % 2 = 0 by omega, show (2*i+1) % 2 = 1 by omega]
  omega

theorem getHalf_setHalf_ne (v : ℕ) (h : j ≠ i) : (b.setHalf i v).getHalf j = b.getHalf j := by
  apply getHalf_congr
  intro r hr
  rw [byte_setHalf, if_neg (by omega)]

theorem getWord_setHalf_ne (v : ℕ) (h : j ≠ i / 2) : (b.setHalf i v).getWord j = b.getWord j := by
  apply getWord_congr
  intro r hr
  rw [byte_setHalf, if_neg (by omega)]

theorem getHalf_setWord_ne (v : ℕ) (h : j / 2 ≠ i) : (b.setWord i v).getHalf j = b.getHalf j := by
  apply getHalf_congr
  intro r hr
  by_cases hk : 2*j+r < n
  · rw [byte_setWord _ _ _ _ hk, if_neg (by omega)]
  · simp [byte, hk]

theorem getHalf_setWords_ne (v : Fin m → ℕ) (h : j / 2 < i ∨ i + m ≤ j / 2) :
    (b.setWords i v).getHalf j = b.getHalf j := by
  apply getHalf_congr
  intro r hr
  rw [byte_setWords, dif_neg (by omega)]

theorem getWord_setWords_ne (v : Fin m → ℕ) (h : j < i ∨ i + m ≤ j) :
    (b.setWords i v).getWord j = b.getWord j := by
  apply getWord_congr
  intro r hr
  rw [byte_setWords, dif_neg (by omega)]

theorem getWord_setWords (i : ℕ) (v : Fin m → ℕ) (k : Fin m) (hi : 4*(i+k)+3 < n) :
    (b.setWords i v).getWord (i + k) = v k % 4294967296 := by
  have hbyte : ∀ r < 4, (b.setWords i v).byte (4*(i+k)+r) = v k / 256 ^ r % 256 := by
    intro r hr
    rw [byte_setWords, dif_pos ⟨⟨by omega, by omega⟩, by omega⟩]
    have hk : (⟨(4*(i+k)+r) / 4 - i, by omega⟩ : Fin m) = k := by
      apply Fin.ext
      change (4*(i+k)+r) / 4 - i = k
      omega
    rw [hk, show (4*(i+k.val)+r) % 4 = r by omega]
  have h0 := hbyte 0 (by omega)
  rw [Nat.add_zero] at h0
  rw [getWord, h0, hbyte 1 (by omega), hbyte 2 (by omega), hbyte 3 (by omega)]
  norm_num
  omega

theorem getBit_setBit_self (i : ℕ) (v : Bool) (hi : i / 8 < n) : (b.setBit i v).getBit i = v := by
  have hlt : i % 8 < 8 := Nat.mod_lt _ (by omega)
  rw [getBit, dif_pos hi, setBit, if_pos rfl]
  cases v <;> simp [hlt, -BitVec.getLsbD_eq_getElem]

theorem getBit_setBit_ne (v : Bool) (h : j ≠ i) : (b.setBit i v).getBit j = b.getBit j := by
  unfold getBit
  split
  · rw [setBit]
    dsimp only
    split
    · next hj =>
      have hne : j % 8 ≠ i % 8 := by omega
      have hlt : j % 8 < 8 := Nat.mod_lt _ (by omega)
      cases v <;> simp [hlt, Ne.symm hne, -BitVec.getLsbD_eq_getElem]
    · rfl
  · rfl

theorem byte_copy (i m : ℕ) (src : ℕ → UInt8) (k : ℕ) : (b.copy i m src).byte k =
      if (i ≤ k ∧ k < i + m) ∧ k < n then (src (k - i)).toNat else b.byte k := by
  by_cases hk : k < n
  · simp only [byte, hk, dif_pos, copy, and_true]
    split <;> rfl
  · simp [byte, hk]

end

end ByteBlock
