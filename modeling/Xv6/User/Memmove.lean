import Mathlib.Algebra.Group.Nat.Defs
import Mathlib.Tactic.Common

/-! # The two `memmove`s

`memmove` of `kernel/string.c` and of `user/ulib.c`. They choose the direction of the copy by
different tests; each direction is right as long as no byte is overwritten before it has been read.
-/

namespace Xv6.Memmove
set_option autoImplicit false
open Function (update update_self update_of_ne)

abbrev Addr := BitVec 64

abbrev Bytes := Addr → UInt8

/-- `while(n-- > 0) *d++ = *s++;` -/
def copyUp : ℕ → Addr → Addr → Bytes → Bytes
  | 0, _, _, m => m
  | n + 1, d, s, m => copyUp n (d + 1) (s + 1) (update m d (m s))

/-- `while(n-- > 0) *--d = *--s;` -/
def copyDown : ℕ → Addr → Addr → Bytes → Bytes
  | 0, _, _, m => m
  | n + 1, d, s, m => copyDown n (d - 1) (s - 1) (update m (d - 1) (m (s - 1)))

/-- `n` is a `uint`. -/
def Kernel.memmove (dst src : Addr) (n : BitVec 32) (m : Bytes) : Addr × Bytes :=
  if n = 0 then (dst, m)
  else if src < dst ∧ dst < src + n.setWidth 64 then
    (dst, copyDown n.toNat (dst + n.setWidth 64) (src + n.setWidth 64) m)
  else (dst, copyUp n.toNat dst src m)

/-- `n` is an `int`: a loop that starts at a negative `n` copies nothing. -/
def Ulib.memmove (dst src : Addr) (n : BitVec 32) (m : Bytes) : Addr × Bytes :=
  if dst < src then (dst, copyUp n.toInt.toNat dst src m)
  else (dst, copyDown n.toInt.toNat (dst + n.signExtend 64) (src + n.signExtend 64) m)

/-- `m'` is `m` with the `n` bytes from `src` on moved to `dst`. -/
structure Moves (m : Bytes) (dst src : Addr) (n : ℕ) (m' : Bytes) : Prop where
  inside : ∀ i < n, m' (dst + BitVec.ofNat 64 i) = m (src + BitVec.ofNat 64 i)
  outside : ∀ a, (∀ i < n, a ≠ dst + BitVec.ofNat 64 i) → m' a = m a

section
variable {m m' m'' : Bytes} {d s : Addr} {n i j : ℕ}

theorem Moves.zero : Moves m d s 0 m :=
  ⟨fun _ hi => absurd hi (Nat.not_lt_zero _), fun _ _ => rfl⟩

theorem Moves.unique (h : Moves m d s n m') (h' : Moves m d s n m'') : m' = m'' := by
  funext a
  by_cases ha : ∃ i < n, a = d + BitVec.ofNat 64 i
  · obtain ⟨i, hi, rfl⟩ := ha
    rw [h.inside i hi, h'.inside i hi]
  · have hout : ∀ i < n, a ≠ d + BitVec.ofNat 64 i := fun i hi he => ha ⟨i, hi, he⟩
    rw [h.outside a hout, h'.outside a hout]

theorem offset_ne (d : Addr) (hij : i < j) (hj : j < 2 ^ 64) :
    d + BitVec.ofNat 64 i ≠ d + BitVec.ofNat 64 j := by
  bv_omega

theorem offset_succ (d : Addr) (i : ℕ) :
    d + BitVec.ofNat 64 (i + 1) = d + 1 + BitVec.ofNat 64 i := by
  rw [Nat.add_comm, BitVec.ofNat_add, BitVec.add_assoc]
  rfl

/-- An upward copy reads byte `j` after it has written the bytes before it. -/
theorem copyUp_moves (hn : n ≤ 2 ^ 64)
    (h : ∀ i j, i < j → j < n → s + BitVec.ofNat 64 j ≠ d + BitVec.ofNat 64 i) :
    Moves m d s n (copyUp n d s m) := by
  induction n generalizing d s m with
  | zero => exact .zero
  | succ n ih =>
    have hrest : ∀ i j, i < j → j < n → s + 1 + BitVec.ofNat 64 j ≠ d + 1 + BitVec.ofNat 64 i := by
      intro i j hij hj
      rw [← offset_succ, ← offset_succ]
      exact h (i + 1) (j + 1) (by omega) (by omega)
    have hm := ih (m := update m d (m s)) (by omega) hrest
    have hzero : d + BitVec.ofNat 64 0 = d := by simp
    constructor
    · intro i hi
      cases i with
      | zero =>
        have hd : ∀ i < n, d ≠ d + 1 + BitVec.ofNat 64 i := by
          intro i hi
          have := offset_ne d (Nat.succ_pos i) (by omega)
          rwa [hzero, offset_succ] at this
        rw [hzero, copyUp, hm.outside d hd, update_self]
        simp
      | succ i =>
        have hread := h 0 (i + 1) (Nat.succ_pos i) hi
        rw [hzero, offset_succ] at hread
        rw [offset_succ, offset_succ, copyUp, hm.inside i (by omega), update_of_ne hread]
    · intro a ha
      have hd := ha 0 (Nat.succ_pos n)
      rw [hzero] at hd
      rw [copyUp, hm.outside a, update_of_ne hd]
      intro i hi
      rw [← offset_succ]
      exact ha (i + 1) (by omega)

/-- A downward copy reads byte `i` after it has written the bytes behind it. -/
theorem copyDown_moves (hn : n ≤ 2 ^ 64)
    (h : ∀ i j, i < j → j < n → s + BitVec.ofNat 64 i ≠ d + BitVec.ofNat 64 j) :
    Moves m d s n (copyDown n (d + BitVec.ofNat 64 n) (s + BitVec.ofNat 64 n) m) := by
  induction n generalizing m with
  | zero => exact .zero
  | succ n ih =>
    have hback : ∀ a : Addr, a + BitVec.ofNat 64 (n + 1) - 1 = a + BitVec.ofNat 64 n := by
      intro a
      bv_omega
    rw [copyDown, hback, hback]
    have hm := ih (m := update m (d + BitVec.ofNat 64 n) (m (s + BitVec.ofNat 64 n))) (by omega)
      fun i j hij hj => h i j hij (by omega)
    constructor
    · intro i hi
      rcases Nat.lt_succ_iff_lt_or_eq.mp hi with hlt | rfl
      · rw [hm.inside i hlt, update_of_ne (h i n hlt (Nat.lt_succ_self n))]
      · rw [hm.outside _ fun j hj => (offset_ne d hj (by omega)).symm, update_self]
    · intro a ha
      rw [hm.outside a fun i hi => ha i (by omega), update_of_ne (ha n (Nat.lt_succ_self n))]

end

section
variable {m : Bytes} {dst src : Addr} {n n' : BitVec 32}

theorem Kernel.memmove_moves (hdst : dst.toNat + n.toNat ≤ 2 ^ 64)
    (hsrc : src.toNat + n.toNat ≤ 2 ^ 64) :
    ∃ m', Kernel.memmove dst src n m = (dst, m') ∧ Moves m dst src n.toNat m' := by
  have hlt := n.isLt
  have hwidth : n.setWidth 64 = BitVec.ofNat 64 n.toNat := by bv_omega
  unfold Kernel.memmove
  split
  · next hn =>
    subst hn
    exact ⟨m, rfl, .zero⟩
  · split
    · next hover =>
      rw [hwidth]
      refine ⟨_, rfl, copyDown_moves (by omega) ?_⟩
      intro i j hij hj
      bv_omega
    · next hover =>
      refine ⟨_, rfl, copyUp_moves (by omega) ?_⟩
      intro i j hij hj
      bv_omega

theorem Ulib.memmove_moves (hlen : n'.toInt = n.toNat) (hdst : dst.toNat + n.toNat ≤ 2 ^ 64)
    (hsrc : src.toNat + n.toNat ≤ 2 ^ 64) :
    ∃ m', Ulib.memmove dst src n' m = (dst, m') ∧ Moves m dst src n.toNat m' := by
  have hlt := n.isLt
  have hloop : n'.toInt.toNat = n.toNat := by omega
  have hext : n'.signExtend 64 = BitVec.ofNat 64 n.toNat := by
    rw [BitVec.signExtend, hlen]
    rfl
  unfold Ulib.memmove
  rw [hloop, hext]
  split
  · next hup =>
    refine ⟨_, rfl, copyUp_moves (by omega) ?_⟩
    intro i j hij hj
    bv_omega
  · next hdown =>
    refine ⟨_, rfl, copyDown_moves (by omega) ?_⟩
    intro i j hij hj
    bv_omega

end

/-- For every memory and all ranges of one length that end in the address space, overlapping or
not, both functions return `dst` and leave the same memory, in which the bytes of the source range
have moved to `dst` and the rest is as before. -/
theorem memmoves_agree (m : Bytes) (dst src : Addr) (n n' : BitVec 32)
    (hlen : n'.toInt = n.toNat) (hdst : dst.toNat + n.toNat ≤ 2 ^ 64)
    (hsrc : src.toNat + n.toNat ≤ 2 ^ 64) :
    Kernel.memmove dst src n m = Ulib.memmove dst src n' m ∧
      ∃ m', Kernel.memmove dst src n m = (dst, m') ∧ Moves m dst src n.toNat m' := by
  obtain ⟨m1, hkernel, h1⟩ := Kernel.memmove_moves hdst hsrc
  obtain ⟨m2, hulib, h2⟩ := Ulib.memmove_moves hlen hdst hsrc
  refine ⟨?_, m1, hkernel, h1⟩
  rw [hkernel, hulib, h1.unique h2]

/-- Three bytes move up by one, to the end of the address space. -/
theorem memmoves_agree_overlap :
    Kernel.memmove (-3) (-4) 3 (fun a => a.toNat.toUInt8) =
      Ulib.memmove (-3) (-4) 3 (fun a => a.toNat.toUInt8) ∧
      ∃ m', Kernel.memmove (-3) (-4) 3 (fun a => a.toNat.toUInt8) = (-3, m') ∧
        Moves (fun a => a.toNat.toUInt8) (-3) (-4) (3 : BitVec 32).toNat m' :=
  memmoves_agree _ _ _ 3 3 (by decide) (by decide) (by decide)

end Xv6.Memmove
