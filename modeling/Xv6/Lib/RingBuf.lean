import Mathlib.Data.Fin.Basic
import Mathlib.Data.List.Range
import Mathlib.Data.Nat.ModEq

/-! # Ring buffers with free-running counters

A buffer of `c` cells with two `w`-bit counters that are only ever incremented, and wrap around.
A counter taken modulo `c` is the index of its cell; this stays right across a wrap because `c`
divides `2 ^ w`. The contents are the elements between the counters.
-/

set_option autoImplicit false

/-- `first` counts the elements taken out, `next` those put in. -/
structure RingBuf (w c : ℕ) (α : Type*) where
  data : Fin c → α
  first : BitVec w
  next : BitVec w

namespace RingBuf
variable {w c : ℕ} [NeZero c] {α : Type*} {r : RingBuf w c α}

def cell (n : BitVec w) : Fin c := Fin.ofNat c n.toNat

def used (r : RingBuf w c α) : ℕ := (r.next - r.first).toNat

def contents (r : RingBuf w c α) : List α :=
  (List.range r.used).map fun k => r.data (cell (r.first + BitVec.ofNat w k))

def push (r : RingBuf w c α) (a : α) : RingBuf w c α :=
  { r with data := Function.update r.data (cell r.next) a, next := r.next + 1 }

def pop (r : RingBuf w c α) : RingBuf w c α := { r with first := r.first + 1 }

def unpush (r : RingBuf w c α) : RingBuf w c α := { r with next := r.next - 1 }

@[simp] theorem length_contents (r : RingBuf w c α) : r.contents.length = r.used := by
  simp [contents]

omit [NeZero c] in
theorem next_eq (r : RingBuf w c α) : r.next = r.first + BitVec.ofNat w r.used := by
  rw [used, BitVec.ofNat_toNat, BitVec.setWidth_eq, BitVec.add_comm, BitVec.sub_add_cancel]

omit [NeZero c] in
theorem used_eq_zero : r.used = 0 ↔ r.first = r.next := by
  constructor
  · intro h
    rw [r.next_eq, h]
    simp
  · intro h
    simp [used, h]

omit [NeZero c] in
theorem used_eq_iff {n : ℕ} (hn : n < 2 ^ w) :
    r.used = n ↔ r.next = r.first + BitVec.ofNat w n := by
  constructor
  · intro h
    rw [r.next_eq, h]
  · intro h
    rw [used, h, BitVec.add_comm, BitVec.add_sub_cancel, BitVec.toNat_ofNat, Nat.mod_eq_of_lt hn]

theorem cell_inj (hc : c ∣ 2 ^ w) {n : BitVec w} {i j : ℕ} (hi : i < c) (hj : j < c)
    (h : (cell (n + BitVec.ofNat w i) : Fin c) = cell (n + BitVec.ofNat w j)) : i = j := by
  have hmod : ∀ k, (cell (n + BitVec.ofNat w k) : Fin c).val = (n.toNat + k) % c := by
    intro k
    rw [cell, Fin.val_ofNat, BitVec.toNat_add, BitVec.toNat_ofNat, Nat.add_mod_mod,
      Nat.mod_mod_of_dvd _ hc]
  have heq := congrArg Fin.val h
  rw [hmod, hmod] at heq
  have hij : i % c = j % c := Nat.ModEq.add_left_cancel' n.toNat heq
  rwa [Nat.mod_eq_of_lt hi, Nat.mod_eq_of_lt hj] at hij

theorem cell_ne_next (hc : c ∣ 2 ^ w) (hr : r.used < c) {k : ℕ} (hk : k < r.used) :
    (cell (r.first + BitVec.ofNat w k) : Fin c) ≠ cell r.next := by
  intro heq
  rw [r.next_eq] at heq
  have := cell_inj hc (by omega) hr heq
  omega

section Ops
variable {r : RingBuf w c α} (hc : c ∣ 2 ^ w) (hlt : c < 2 ^ w)
include hlt

theorem used_push (hr : r.used < c) (a : α) : (r.push a).used = r.used + 1 := by
  rw [used_eq_iff (by omega)]
  show r.next + 1 = r.first + BitVec.ofNat w (r.used + 1)
  rw [BitVec.ofNat_add, ← BitVec.add_assoc, ← r.next_eq]
  rfl

include hc in
theorem contents_push (hr : r.used < c) (a : α) : (r.push a).contents = r.contents ++ [a] := by
  rw [contents, used_push hlt hr, List.range_succ, List.map_append]
  congr 1
  · refine List.map_congr_left ?_
    intro k hk
    exact Function.update_of_ne (cell_ne_next hc hr (List.mem_range.mp hk)) _ _
  · rw [List.map_singleton]
    refine congrArg (fun x => [x]) ?_
    show Function.update r.data (cell r.next) a (cell (r.first + BitVec.ofNat w r.used)) = a
    rw [← r.next_eq, Function.update_self]

omit hlt in
theorem contents_pop (hr : 0 < r.used) :
    r.contents = r.data (cell r.first) :: r.pop.contents ∧ r.pop.used + 1 = r.used := by
  have hused : r.pop.used + 1 = r.used := by
    have hpos : (r.next - r.first).toNat ≠ 0 := by
      have : (r.next - r.first).toNat = r.used := rfl
      omega
    have hw : 1 < 2 ^ w := by
      have := (r.next - r.first).isLt
      omega
    have hone : (1 : BitVec w).toNat = 1 := by
      show (BitVec.ofNat w 1).toNat = 1
      rw [BitVec.toNat_ofNat, Nat.mod_eq_of_lt hw]
    show (r.next - (r.first + 1)).toNat + 1 = (r.next - r.first).toNat
    rw [show r.next - (r.first + 1) = r.next - r.first - 1 by
      rw [BitVec.sub_eq_add_neg, BitVec.sub_eq_add_neg, BitVec.sub_eq_add_neg, BitVec.neg_add,
        BitVec.sub_eq_add_neg, BitVec.add_assoc],
      BitVec.toNat_sub_of_le (by rw [BitVec.le_def, hone]; omega), hone]
    omega
  refine ⟨?_, hused⟩
  rw [contents, ← hused, List.range_succ_eq_map, List.map_cons, List.map_map]
  congr 1
  · simp
  · refine List.map_congr_left ?_
    intro k _
    show r.data (cell (r.first + BitVec.ofNat w (k + 1))) =
      r.data (cell (r.first + 1 + BitVec.ofNat w k))
    rw [Nat.add_comm k 1, BitVec.ofNat_add, ← BitVec.add_assoc]
    rfl

omit hlt in
theorem contents_unpush (hr : 0 < r.used) :
    r.contents = r.unpush.contents ++ [r.data (cell (r.next - 1))] ∧
      r.unpush.used + 1 = r.used := by
  have hnext : r.next - 1 = r.first + BitVec.ofNat w (r.used - 1) := by
    have hsucc : BitVec.ofNat w r.used = BitVec.ofNat w (r.used - 1) + 1 := by
      rw [show r.used = r.used - 1 + 1 by omega, BitVec.ofNat_add, Nat.add_sub_cancel]
      rfl
    rw [r.next_eq, hsucc, ← BitVec.add_assoc, BitVec.add_sub_cancel]
  have hlt : r.used < 2 ^ w := (r.next - r.first).isLt
  have hused : r.unpush.used = r.used - 1 := (used_eq_iff (by omega)).mpr hnext
  refine ⟨?_, by omega⟩
  rw [contents, contents, hused, show r.used = r.used - 1 + 1 by omega, List.range_succ,
    List.map_append, List.map_singleton, Nat.add_sub_cancel, hnext]
  rfl

end Ops
end RingBuf
