import Xv6.Lib.PageRange
import Xv6.Vm.Eager

/-! # User memory as a flat array of bytes

`copyin` and `copyinstr` read, through any page table, the bytes of an address range in order, and
they succeed exactly if every page of what they read is mapped with `PTE_U`. The addresses are
natural numbers: an address at or above `MAXVA` ends the loops, so the 64-bit sums of the source
do not wrap.
-/

namespace Xv6.Vm
set_option autoImplicit false
open PageRange

def PageTable.User (pt : PageTable) (v : ℕ) : Prop :=
  v < MAXVPN ∧ pt.reaches v = true ∧ (pt.pte v).flags.v = true ∧ (pt.pte v).flags.u = true ∧
    (pt.pte v).ppn ≠ 0

instance (pt : PageTable) (v : ℕ) : Decidable (pt.User v) := inferInstanceAs (Decidable (_ ∧ _))

/-- Every page of the `len` bytes from `va` on is mapped with `PTE_U`. -/
def PageTable.UserRange (pt : PageTable) (va len : ℕ) : Prop :=
  ∀ v, Touches PGSIZE va len v → pt.User v

def userByte (k : Kmem) (pt : PageTable) (va : ℕ) : UInt8 :=
  (k.data (pt.pte (va / PGSIZE)).ppn).byteAt va

def userBytes (k : Kmem) (pt : PageTable) (va len : ℕ) : List UInt8 :=
  (List.range' va len).map (userByte k pt)

theorem PGSIZE_pos : 0 < PGSIZE := by simp [PGSIZE]

section
variable {k : Kmem} {pt : PageTable} {va len v n : ℕ}

theorem walkaddr_of_user (h : pt.User v) : walkaddr pt v = some (pt.pte v).ppn := by
  obtain ⟨hlt, hr, hv, hu, hppn⟩ := h
  rw [walkaddr, if_neg (by omega), if_pos (by simp [hr, hv, hu]), if_neg hppn]

theorem walkaddr_of_not_user (h : ¬ pt.User v) : walkaddr pt v = none := by
  unfold walkaddr
  split
  · rfl
  · next hlt =>
    split
    · next hall =>
      simp only [Bool.and_eq_true] at hall
      refine if_pos ?_
      by_contra hppn
      exact h ⟨by omega, hall.1.1, hall.1.2, hall.2, hppn⟩
    · rfl

theorem userRange_zero : pt.UserRange va 0 := fun _ h => absurd h not_touches_zero

theorem userRange_next (hlen : 0 < len) : pt.UserRange va len ↔
    pt.User (va / PGSIZE) ∧
      pt.UserRange ((va / PGSIZE + 1) * PGSIZE) (len - min (PGSIZE - va % PGSIZE) len) := by
  simp only [PageTable.UserRange, touches_next PGSIZE_pos hlen]
  constructor
  · intro h
    exact ⟨h _ (Or.inl rfl), fun v hv => h v (Or.inr hv)⟩
  · rintro ⟨h, hrest⟩ v (rfl | hv)
    · exact h
    · exact hrest v hv

@[simp] theorem length_userBytes : (userBytes k pt va len).length = len := by
  simp [userBytes]

theorem userBytes_next : userBytes k pt va len =
    userBytes k pt va (min (PGSIZE - va % PGSIZE) len) ++
      userBytes k pt ((va / PGSIZE + 1) * PGSIZE) (len - min (PGSIZE - va % PGSIZE) len) :=
  range_map_split PGSIZE_pos _

theorem bytes_eq_userBytes (hn : n ≤ PGSIZE - va % PGSIZE) :
    (k.data (pt.pte (va / PGSIZE)).ppn).bytes (va % PGSIZE) n = userBytes k pt va n := by
  apply List.ext_getElem
  · simp [Page.bytes]
    omega
  · intro i hi hi'
    have hin : i < n := by simpa using hi'
    have hdiv : (va + i) / PGSIZE = va / PGSIZE := div_of_lt (by omega)
    have hmod : (va + i) % PGSIZE = va % PGSIZE + i := mod_of_lt (by omega)
    simp [Page.bytes, userBytes, userByte, Page.byteAt, hdiv, hmod]

/-! ## `copyin` -/

theorem copyinLoop_spec (fuel : ℕ) (hfuel : len ≤ fuel) :
    (pt.UserRange va len → copyinLoop k pt fuel va len = some (userBytes k pt va len)) ∧
      (¬ pt.UserRange va len → copyinLoop k pt fuel va len = none) := by
  induction fuel generalizing va len with
  | zero =>
    obtain rfl : len = 0 := by omega
    exact ⟨fun _ => rfl, fun h => absurd userRange_zero h⟩
  | succ fuel ih =>
    rw [copyinLoop]
    by_cases hlen : len = 0
    · subst hlen
      exact ⟨fun _ => rfl, fun h => absurd userRange_zero h⟩
    rw [if_neg hlen]
    have hmod := Nat.mod_lt va PGSIZE_pos
    have hrest := @ih ((va / PGSIZE + 1) * PGSIZE) (len - min (PGSIZE - va % PGSIZE) len) (by omega)
    rw [userRange_next (by omega)]
    dsimp only
    by_cases hu : pt.User (va / PGSIZE)
    · rw [walkaddr_of_user hu]
      dsimp only
      rw [bytes_eq_userBytes (Nat.min_le_left _ _)]
      constructor
      · rintro ⟨-, hr⟩
        rw [hrest.1 hr, Option.map_some, ← userBytes_next]
      · intro h
        rw [hrest.2 fun hr => h ⟨hu, hr⟩, Option.map_none]
    · rw [walkaddr_of_not_user hu]
      exact ⟨fun h => absurd h.1 hu, fun _ => rfl⟩

theorem copyin_of_userRange (h : pt.UserRange va len) :
    copyin k pt va len = some (userBytes k pt va len) :=
  (copyinLoop_spec len le_rfl).1 h

theorem copyin_of_not_userRange (h : ¬ pt.UserRange va len) : copyin k pt va len = none :=
  (copyinLoop_spec len le_rfl).2 h

/-! ## `copyinstr` -/

theorem copyChars_of_not_mem {l : List UInt8} (h : 0 ∉ l) : copyChars l = (l, false) := by
  induction l with
  | nil => rfl
  | cons c cs ih =>
    rw [List.mem_cons, not_or] at h
    rw [copyChars, if_neg (Ne.symm h.1), ih h.2]

theorem copyChars_append {l1 l2 : List UInt8} (h : 0 ∉ l1) :
    copyChars (l1 ++ 0 :: l2) = (l1 ++ [0], true) := by
  induction l1 with
  | nil => rfl
  | cons c cs ih =>
    rw [List.mem_cons, not_or] at h
    rw [List.cons_append, copyChars, if_neg (Ne.symm h.1), ih h.2]
    rfl

/-- The string at `va` ends with its byte number `j`. -/
def EndsAt (k : Kmem) (pt : PageTable) (va j : ℕ) : Prop :=
  userByte k pt (va + j) = 0 ∧ ∀ i < j, userByte k pt (va + i) ≠ 0

theorem not_mem_userBytes (h : ∀ i < n, userByte k pt (va + i) ≠ 0) :
    (0 : UInt8) ∉ userBytes k pt va n := by
  simp only [userBytes, List.mem_map, List.mem_range'_1, not_exists, not_and]
  rintro a ⟨hle, hlt⟩ heq
  have := h (a - va) (by omega)
  rw [show va + (a - va) = a by omega] at this
  exact this heq

theorem userBytes_append (m n : ℕ) :
    userBytes k pt va (m + n) = userBytes k pt va m ++ userBytes k pt (va + m) n := by
  rw [userBytes, userBytes, userBytes, ← List.map_append, List.range'_append_1]

theorem copyChars_userBytes (k : Kmem) (pt : PageTable) (va n : ℕ) :
    (∃ j < n, EndsAt k pt va j ∧
      copyChars (userBytes k pt va n) = (userBytes k pt va (j + 1), true)) ∨
    ((∀ i < n, userByte k pt (va + i) ≠ 0) ∧
      copyChars (userBytes k pt va n) = (userBytes k pt va n, false)) := by
  by_cases hex : ∃ j, j < n ∧ userByte k pt (va + j) = 0
  · left
    obtain ⟨j, ⟨hj, hzero⟩, hbefore⟩ : ∃ j, (j < n ∧ userByte k pt (va + j) = 0) ∧
        ∀ i < j, userByte k pt (va + i) ≠ 0 := by
      refine ⟨Nat.find hex, Nat.find_spec hex, fun i hi hzero => ?_⟩
      have := (Nat.find_spec hex).1
      exact Nat.find_min hex hi ⟨by omega, hzero⟩
    refine ⟨j, hj, ⟨hzero, hbefore⟩, ?_⟩
    obtain ⟨m, rfl⟩ : ∃ m, n = j + (1 + m) := ⟨n - j - 1, by omega⟩
    have hone : userBytes k pt (va + j) 1 = [0] := by simp [userBytes, hzero]
    have hsplit : userBytes k pt va (j + (1 + m)) =
        userBytes k pt va j ++ 0 :: userBytes k pt (va + j + 1) m := by
      rw [userBytes_append, userBytes_append, hone, List.singleton_append]
    rw [hsplit, copyChars_append (not_mem_userBytes hbefore), userBytes_append, hone]
  · right
    have hnone : ∀ i < n, userByte k pt (va + i) ≠ 0 := fun i hi hzero => hex ⟨i, hi, hzero⟩
    exact ⟨hnone, copyChars_of_not_mem (not_mem_userBytes hnone)⟩

/-- What `copyinstr` has to return for the string at `va`. -/
structure IsString (k : Kmem) (pt : PageTable) (va max : ℕ) (ok : Bool) (out : List UInt8) :
    Prop where
  found : ok = true → ∃ j < max, pt.UserRange va (j + 1) ∧ EndsAt k pt va j ∧
    out = userBytes k pt va (j + 1)
  missing : ok = false → ∀ j < max, pt.UserRange va (j + 1) → userByte k pt (va + j) ≠ 0
  written : out.length ≤ max

theorem IsString.next {max : ℕ} {ok : Bool} {out : List UInt8}
    (hu : pt.User (va / PGSIZE))
    (hnone : ∀ i < min (PGSIZE - va % PGSIZE) max, userByte k pt (va + i) ≠ 0)
    (h : IsString k pt ((va / PGSIZE + 1) * PGSIZE) (max - min (PGSIZE - va % PGSIZE) max) ok out) :
    IsString k pt va max ok (userBytes k pt va (min (PGSIZE - va % PGSIZE) max) ++ out) := by
  have hmod := Nat.mod_lt va PGSIZE_pos
  have hnext : (va / PGSIZE + 1) * PGSIZE = va + (PGSIZE - va % PGSIZE) := next_eq PGSIZE_pos
  refine ⟨?_, ?_, ?_⟩
  · intro hok
    obtain ⟨j, hj, hr, ⟨hzero, hbefore⟩, rfl⟩ := h.found hok
    -- The string reaches the next page, so the round has read this page to its end.
    have hn : min (PGSIZE - va % PGSIZE) max = PGSIZE - va % PGSIZE := by omega
    rw [hn] at hnone ⊢
    refine ⟨PGSIZE - va % PGSIZE + j, by omega, ?_, ⟨?_, ?_⟩, ?_⟩
    · rw [userRange_next (by omega), Nat.min_eq_left (by omega)]
      rw [show PGSIZE - va % PGSIZE + j + 1 - (PGSIZE - va % PGSIZE) = j + 1 by omega]
      exact ⟨hu, hr⟩
    · rw [hnext] at hzero
      rwa [← Nat.add_assoc]
    · intro i hi
      rcases Nat.lt_or_ge i (PGSIZE - va % PGSIZE) with hlt | hge
      · exact hnone i hlt
      · have := hbefore (i - (PGSIZE - va % PGSIZE)) (by omega)
        rwa [hnext, Nat.add_assoc, Nat.add_sub_cancel' hge] at this
    · rw [Nat.add_assoc, userBytes_append (PGSIZE - va % PGSIZE) (j + 1), hnext]
  · intro hok j hj hr hzero
    rcases Nat.lt_or_ge j (min (PGSIZE - va % PGSIZE) max) with hlt | hge
    · exact hnone j hlt hzero
    · rw [userRange_next (by omega), Nat.min_eq_left (by omega)] at hr
      refine h.missing hok (j - (PGSIZE - va % PGSIZE)) (by omega) ?_ ?_
      · rw [show j - (PGSIZE - va % PGSIZE) + 1 = j + 1 - (PGSIZE - va % PGSIZE) by omega]
        exact hr.2
      · rwa [hnext,
          show va + (PGSIZE - va % PGSIZE) + (j - (PGSIZE - va % PGSIZE)) = va + j by omega]
  · have := h.written
    rw [List.length_append, length_userBytes]
    omega

theorem copyinstrLoop_spec (k : Kmem) (pt : PageTable) (va fuel : ℕ) {max : ℕ}
    (hfuel : max < fuel) :
    ∃ ok out, copyinstrLoop k pt fuel va max = some (ok, out) ∧ IsString k pt va max ok out := by
  induction fuel generalizing va max with
  | zero => omega
  | succ fuel ih =>
    rw [copyinstrLoop]
    by_cases hmax : max = 0
    · rw [if_pos hmax]
      refine ⟨false, [], rfl, by simp, fun _ j hj => ?_, by simp⟩
      omega
    rw [if_neg hmax]
    have hmod := Nat.mod_lt va PGSIZE_pos
    dsimp only
    by_cases hu : pt.User (va / PGSIZE)
    · rw [walkaddr_of_user hu]
      dsimp only
      rw [bytes_eq_userBytes (Nat.min_le_left _ _)]
      rcases copyChars_userBytes k pt va (min (PGSIZE - va % PGSIZE) max) with
        ⟨j, hj, hends, heq⟩ | ⟨hnone, heq⟩
      · rw [heq]
        refine ⟨true, _, rfl, fun _ => ⟨j, by omega, ?_, hends, rfl⟩, by simp, by simp; omega⟩
        rw [userRange_next (by omega), show j + 1 - min (PGSIZE - va % PGSIZE) (j + 1) = 0 by omega]
        exact ⟨hu, userRange_zero⟩
      · rw [heq]
        obtain ⟨ok, out, hloop, hstr⟩ := @ih ((va / PGSIZE + 1) * PGSIZE)
          (max - min (PGSIZE - va % PGSIZE) max) (by omega)
        refine ⟨ok, _, ?_, hstr.next hu hnone⟩
        simp [hloop]
    · rw [walkaddr_of_not_user hu]
      refine ⟨false, [], rfl, by simp, fun _ j hj hr => ?_, by simp⟩
      exact absurd (hr _ (touches_head (by omega))) hu

/-- `copyinstr` ends for every page table, address and `max`. It returns 0 exactly if there is a NUL
at an offset below `max` such that every page up to it is mapped with `PTE_U`; then it has written
the bytes up to the first NUL. In no case are more than `max` bytes written. -/
theorem copyinstr_reads_string (k : Kmem) (pt : PageTable) (srcva max : ℕ) :
    ∃ ok out, copyinstr k pt srcva max = some (ok, out) ∧ out.length ≤ max ∧
      (ok = true ↔ ∃ j < max, pt.UserRange srcva (j + 1) ∧ userByte k pt (srcva + j) = 0) ∧
      (ok = true → ∃ j < max, pt.UserRange srcva (j + 1) ∧ EndsAt k pt srcva j ∧
        out = userBytes k pt srcva (j + 1)) := by
  obtain ⟨ok, out, heq, hstr⟩ := copyinstrLoop_spec k pt srcva (max + 1)
    (Nat.lt_succ_self max)
  refine ⟨ok, out, heq, hstr.written, ⟨?_, ?_⟩, hstr.found⟩
  · intro hok
    obtain ⟨j, hj, hr, hends, -⟩ := hstr.found hok
    exact ⟨j, hj, hr, hends.1⟩
  · rintro ⟨j, hj, hr, hzero⟩
    by_contra hok
    exact hstr.missing (by simpa using hok) j hj hr hzero

end
end Xv6.Vm
