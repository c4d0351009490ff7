import Xv6.Vm.Sv39

/-! # The page table as a finite map

In a page table whose table pages are all reached by one list of indices only, `mappages` changes
the entries of its pages and no others, and `uvmunmap` clears those of its pages, whichever table
pages `walk` has to add on the way.
-/

namespace Xv6.Sv39
set_option autoImplicit false
open RadixTree
open Xv6.Vm (Ram)

/-! ## Bits of addresses and entries -/

theorem toNat_px (level : ℕ) (va : Word) :
    (px level va).val = va.toNat / 2 ^ (12 + 9 * level) % 512 := by
  show ((va >>> (12 + 9 * level)) &&& 0x1FF).toNat = _
  rw [and_pxmask, BitVec.toNat_ushiftRight, Nat.shiftRight_eq_div_pow]

theorem getLsbD_pgrounddown (a : Word) (i : ℕ) :
    (pgrounddown a).getLsbD i = (a.getLsbD i && decide (12 ≤ i)) := by
  have hmask : (PGSIZE - 1).getLsbD i = (decide (i < 64) && decide (i < 12)) := by
    rw [show PGSIZE - 1 = BitVec.ofNat 64 (2 ^ 12 - 1) by decide, BitVec.getLsbD_ofNat,
      Nat.testBit_two_pow_sub_one]
  rw [pgrounddown, BitVec.getLsbD_and, BitVec.getLsbD_not, hmask]
  by_cases hi : i < 64
  · by_cases h12 : i < 12
    · simp [hi, h12]
    · simp [hi, h12, Nat.le_of_not_lt h12]
  · simp [hi, BitVec.getLsbD_of_ge a i (Nat.le_of_not_lt hi)]

theorem pgrounddown_eq (a : Word) : pgrounddown a = (a >>> 12) <<< 12 := by
  apply BitVec.eq_of_getLsbD_eq
  intro i hi
  rw [getLsbD_pgrounddown, BitVec.getLsbD_shiftLeft, BitVec.getLsbD_ushiftRight]
  by_cases h12 : i < 12
  · simp [h12]
  · simp [hi, h12, Nat.le_of_not_lt h12, Nat.add_sub_cancel' (Nat.le_of_not_lt h12)]

theorem toNat_pgrounddown (a : Word) : (pgrounddown a).toNat = a.toNat / 4096 * 4096 := by
  rw [pgrounddown_eq, BitVec.toNat_shiftLeft, BitVec.toNat_ushiftRight, Nat.shiftRight_eq_div_pow,
    Nat.shiftLeft_eq]
  omega

/-- The indices of the level-2 and level-1 tables for address `va`. -/
def path (va : Word) : List (Fin 512) := [px 2 va, px 1 va]

theorem path_inj {a b : Word} (ha : a.toNat < 2 ^ 38) (hb : b.toNat < 2 ^ 38) :
    (path a = path b ∧ px 0 a = px 0 b) ↔ a.toNat / 4096 = b.toNat / 4096 := by
  simp only [path, List.cons.injEq, and_true, Fin.ext_iff, toNat_px]
  omega

theorem getLsbD_pte2pa (e : Word) (i : ℕ) :
    (pte2pa e).getLsbD i = (decide (i < 64) && (decide (12 ≤ i) && e.getLsbD (i - 2))) := by
  rw [pte2pa, BitVec.getLsbD_shiftLeft, BitVec.getLsbD_ushiftRight]
  by_cases h12 : i < 12
  · simp [h12]
  · rw [show 10 + (i - 12) = i - 2 by omega]
    simp [h12, Nat.le_of_not_lt h12]

theorem getLsbD_pa2pte (pa : Word) (i : ℕ) :
    (pa2pte pa).getLsbD i = (decide (i < 64) && (decide (10 ≤ i) && pa.getLsbD (i + 2))) := by
  rw [pa2pte, BitVec.getLsbD_shiftLeft, BitVec.getLsbD_ushiftRight]
  by_cases h10 : i < 10
  · simp [h10]
  · rw [show 12 + (i - 10) = i + 2 by omega]
    simp [h10, Nat.le_of_not_lt h10]

variable {perm : Word}

theorem getLsbD_of_flags (h : perm.toNat < 2 ^ 10) {i : ℕ} (hi : 10 ≤ i) :
    perm.getLsbD i = false := by
  apply Nat.testBit_lt_two_pow
  exact h.trans_le (Nat.pow_le_pow_right (by decide) hi)

theorem pte2pa_or {pa : Word} (hperm : perm.toNat < 2 ^ 10) :
    pte2pa (pa2pte pa ||| perm) = pgrounddown pa := by
  apply BitVec.eq_of_getLsbD_eq
  intro i hi
  rw [getLsbD_pte2pa, getLsbD_pgrounddown, BitVec.getLsbD_or, getLsbD_pa2pte]
  by_cases h12 : 12 ≤ i
  · rw [getLsbD_of_flags hperm (by omega), show i - 2 + 2 = i by omega]
    simp [hi, h12, show i - 2 < 64 by omega, show 10 ≤ i - 2 by omega]
  · simp [h12]

theorem pteFlags_or {pa : Word} (hperm : perm.toNat < 2 ^ 10) :
    pteFlags (pa2pte pa ||| perm) = perm := by
  apply BitVec.eq_of_getLsbD_eq
  intro i hi
  have hmask : (0x3FF : Word).getLsbD i = decide (i < 10) := by
    rw [show (0x3FF : Word) = BitVec.ofNat 64 (2 ^ 10 - 1) by decide, BitVec.getLsbD_ofNat,
      Nat.testBit_two_pow_sub_one]
    simp [hi]
  rw [pteFlags, BitVec.getLsbD_and, BitVec.getLsbD_or, getLsbD_pa2pte, hmask]
  by_cases h10 : 10 ≤ i
  · rw [getLsbD_of_flags hperm h10]
    simp [h10]
  · simp [h10, Nat.lt_of_not_le h10]

theorem pgrounddown_of_aligned {a : Word} (h : a % PGSIZE = 0) : pgrounddown a = a := by
  apply BitVec.eq_of_toNat_eq
  have := congrArg BitVec.toNat h
  rw [toNat_pgrounddown]
  change a.toNat % 4096 = 0 at this
  omega

theorem toNat_or_PTE_V (hperm : perm.toNat < 2 ^ 10) : (perm ||| PTE_V).toNat < 2 ^ 10 := by
  exact Nat.or_lt_two_pow hperm (by decide)

theorem or_PTE_V_valid (e : Word) : (e ||| PTE_V) &&& PTE_V ≠ 0 := by
  intro h
  have hbit := congrArg (fun w : Word => w.getLsbD 0) h
  simp [PTE_V] at hbit

/-! ## The tree of table pages -/

/-- The page that an entry of a table above level 0 leads to. -/
def next (e : Word) : Option Word := if e &&& PTE_V ≠ 0 then some (pte2pa e) else none

theorem next_zero : next 0 = none := by decide

def Unshared (m : Phys) (root : Word) : Prop := RadixTree.Unshared next m.word root 2

def IsTable (m : Phys) (root pg : Word) : Prop :=
  ∃ π, π.length ≤ 2 ∧ node next m.word root π = some pg

/-- The free pages are distinct pages and none of them is a table page. -/
def Fresh (m : Phys) (root : Word) : Prop :=
  m.freelist.Nodup ∧ ∀ pg ∈ m.freelist, pg % PGSIZE = 0 ∧ ¬ IsTable m root pg

/-- The leaf entry of `va`, as `walk` with `alloc = 0` finds it, and 0 if there is none. -/
def lookup (m : Phys) (root va : Word) : Word :=
  match walk false root va m with
  | .ok (some (pg, i), _) => m.word pg i
  | _ => 0

section
variable {m m' : Phys} {root va pg : Word} {level : ℕ} {π : List (Fin 512)}

theorem walkLevel_valid {alloc : Bool} (h : m.word pg (px level va) &&& PTE_V ≠ 0) :
    walkLevel alloc level va m pg = (some (pte2pa (m.word pg (px level va))), m) :=
  if_pos h

theorem walkLevel_find (m : Phys) (level : ℕ) (va pg : Word) :
    walkLevel false level va m pg = (next (m.word pg (px level va)), m) := by
  by_cases h : m.word pg (px level va) &&& PTE_V ≠ 0
  · rw [walkLevel_valid h, next, if_pos h]
  · unfold walkLevel
    rw [if_neg h, next, if_neg h]
    rfl

theorem walk_find (m : Phys) (root : Word) (hva : va.toNat < 2 ^ 38) :
    walk false root va m =
      .ok ((node next m.word root (path va)).map fun pg => (pg, px 0 va), m) := by
  have hlt : ¬ va ≥ MAXVA := by
    exact Nat.not_le.mpr hva
  unfold walk
  rw [if_neg hlt, walkLevel_find]
  simp only [path, node]
  cases next (m.word root (px 2 va)) with
  | none => rfl
  | some pg =>
    dsimp only [Option.bind_some]
    rw [walkLevel_find]
    cases next (m.word pg (px 1 va)) with
    | none => rfl
    | some pg => rfl

theorem lookup_eq (m : Phys) (root : Word) (hva : va.toNat < 2 ^ 38) :
    lookup m root va = (entry next m.word root (path va) (px 0 va)).getD 0 := by
  rw [lookup, walk_find m root hva, entry]
  cases node next m.word root (path va) with
  | none => rfl
  | some pg => rfl

/-! ## `walk` with `alloc = 1` -/

/-- What `walk` leaves: a tree without sharing, fresh free pages and the same leaf entries. -/
structure Kept (m : Phys) (root : Word) (m' : Phys) : Prop where
  unshared : Unshared m' root
  fresh : Fresh m' root
  lookup : ∀ va : Word, va.toNat < 2 ^ 38 → lookup m' root va = lookup m root va

theorem Kept.refl (hu : Unshared m root) (hf : Fresh m root) : Kept m root m :=
  ⟨hu, hf, fun _ _ => rfl⟩

theorem Kept.trans {m1 : Phys} (h : Kept m root m1) (h' : Kept m1 root m') : Kept m root m' :=
  ⟨h'.unshared, h'.fresh, fun va hva => (h'.lookup va hva).trans (h.lookup va hva)⟩

variable {a pa q : Word} {R : Ram}

theorem next_link (hq : q % PGSIZE = 0) : next (pa2pte q ||| PTE_V) = some q := by
  rw [next, if_pos (or_PTE_V_valid _), pte2pa_or (by decide), pgrounddown_of_aligned hq]

theorem Kept.of_grows {i : Fin 512} {rest : List Word} (hu : Unshared m root) (hf : Fresh m root)
    (hlist : m.freelist = q :: rest) (hlist' : m'.freelist = rest)
    (h : Grows next m.word root 2 π i q 0 m'.word) : Kept m root m' := by
  obtain ⟨hnodup, hfree⟩ := hf
  rw [hlist] at hnodup hfree
  refine ⟨h.unshared hu, ⟨?_, ?_⟩, ?_⟩
  · rw [hlist']
    exact hnodup.of_cons
  · rw [hlist']
    intro r hr
    obtain ⟨haligned, hnot⟩ := hfree r (List.mem_cons_of_mem q hr)
    refine ⟨haligned, ?_⟩
    rintro ⟨σ, hσ, hnode⟩
    rw [h.node_eq hu hσ] at hnode
    split at hnode
    · cases hnode
      exact (List.nodup_cons.mp hnodup).1 hr
    · exact hnot ⟨σ, hσ, hnode⟩
  · intro va hva
    rw [lookup_eq m' root hva, lookup_eq m root hva, h.entry_eq hu rfl]
    split
    · next heq =>
      -- Where there was no table, all entries are 0.
      rw [entry, heq, h.missing]
      rfl
    · rfl

theorem grows_link {i : Fin 512} (junk : Fin 512 → Word)
    (hq : ∀ σ, σ.length ≤ 2 → node next m.word root σ ≠ some q) (haligned : q % PGSIZE = 0)
    (hπ : node next m.word root π = some pg) (hlen : π.length < 2)
    (hmissing : node next m.word root (π ++ [i]) = none) :
    Grows next m.word root 2 π i q 0 (setEntry (Function.update (Function.update m.word q junk) q
      fun _ => 0) pg i (pa2pte q ||| PTE_V)) := by
  have hne : q ≠ pg := by
    rintro rfl
    exact hq π hlen.le hπ
  refine ⟨hlen, hq, hmissing, next_zero, fun j => ?_, pg, hπ, ?_, fun r j hr hnot => ?_⟩
  · rw [setEntry_of_ne (.inl hne), Function.update_self]
  · rw [setEntry_self, next_link haligned]
  · rw [setEntry_of_ne (not_and_or.mp hnot), Function.update_of_ne hr, Function.update_of_ne hr]

theorem walkLevel_alloc (level : ℕ) (va : Word) (hu : Unshared m root) (hf : Fresh m root)
    (hπ : node next m.word root π = some pg) (hlen : π.length < 2) :
    walkLevel true level va m pg = (none, m) ∨ ∃ q m', walkLevel true level va m pg = (some q, m') ∧
      Kept m root m' ∧ node next m'.word root (π ++ [px level va]) = some q := by
  have hnode : node next m.word root (π ++ [px level va]) = next (m.word pg (px level va)) := by
    rw [node_snoc, hπ, Option.bind_some]
  by_cases hvalid : m.word pg (px level va) &&& PTE_V ≠ 0
  · right
    refine ⟨_, m, walkLevel_valid hvalid, .refl hu hf, ?_⟩
    rw [hnode, next, if_pos hvalid]
  · rw [next, if_neg hvalid] at hnode
    unfold walkLevel
    rw [if_neg hvalid, if_neg (by decide)]
    cases hlist : m.freelist with
    | nil =>
      left
      simp only [Phys.kalloc, hlist]
    | cons q rest =>
      right
      obtain ⟨haligned, hnot⟩ := hf.2 q (by rw [hlist]; exact List.mem_cons_self)
      have hq : ∀ σ, σ.length ≤ 2 → node next m.word root σ ≠ some q :=
        fun σ hσ hnode => hnot ⟨σ, hσ, hnode⟩
      have hgrows := grows_link (fun _ => 0x0505050505050505) hq haligned hπ hlen hnode
      simp only [Phys.kalloc, hlist]
      refine ⟨_, _, rfl, .of_grows hu hf hlist rfl hgrows, ?_⟩
      exact (hgrows.node_eq hu (by rw [List.length_append]; exact hlen)).trans (if_pos rfl)

theorem walk_alloc (hu : Unshared m root) (hf : Fresh m root) (hva : va.toNat < 2 ^ 38) :
    ∃ r m', walk true root va m = .ok (r, m') ∧ Kept m root m' ∧
      ∀ pg i, r = some (pg, i) → i = px 0 va ∧ node next m'.word root (path va) = some pg := by
  have hlt : ¬ va ≥ MAXVA := by
    exact Nat.not_le.mpr hva
  unfold walk
  rw [if_neg hlt]
  rcases walkLevel_alloc 2 va hu hf (π := []) rfl (by decide) with
    hnone | ⟨q, m1, hsome, hkept, hnode⟩
  · rw [hnone]
    exact ⟨none, m, rfl, .refl hu hf, fun _ _ h => by cases h⟩
  · rw [hsome]
    dsimp only
    rcases walkLevel_alloc 1 va hkept.unshared hkept.fresh hnode
      (Nat.lt_succ_self 1) with
      hnone | ⟨q', m2, hsome, hkept', hnode'⟩
    · rw [hnone]
      exact ⟨none, m1, rfl, hkept, fun _ _ h => by cases h⟩
    · rw [hsome]
      refine ⟨_, m2, rfl, hkept.trans hkept', fun pg i h => ?_⟩
      cases h
      exact ⟨rfl, hnode'⟩

/-! ## Writing an entry -/

/-- The address `va'` is in the page of `va`. -/
def SamePage (va va' : Word) : Prop := va.toNat / 4096 = va'.toNat / 4096

instance (va va' : Word) : Decidable (SamePage va va') := inferInstanceAs (Decidable (_ = _))

theorem lookup_write (hu : Unshared m root) (hva : va.toNat < 2 ^ 38)
    (hpg : node next m.word root (path va) = some pg) (e : Word) {va' : Word}
    (hva' : va'.toNat < 2 ^ 38) : lookup (m.write pg (px 0 va) e) root va' =
      if SamePage va va' then e else lookup m root va' := by
  rw [lookup_eq _ root hva', lookup_eq m root hva', Phys.write,
    entry_setEntry hu hpg rfl (px 0 va) e rfl]
  have hiff := path_inj hva' hva
  by_cases hsame : SamePage va va'
  · rw [if_pos hsame, if_pos (hiff.mpr hsame.symm)]
    rfl
  · rw [if_neg hsame, if_neg fun h => hsame (hiff.mp h).symm]

section
variable (hu : Unshared m root) (hpg : node next m.word root (path va) = some pg) (i : Fin 512)
  (e : Word)
include hu hpg i e

theorem isTable_write : IsTable (m.write pg i e) root q ↔ IsTable m root q := by
  apply exists_congr
  intro σ
  apply and_congr_right
  intro hσ
  rw [Phys.write, node_setEntry hu hpg rfl i e hσ]

theorem Unshared.write : Unshared (m.write pg i e) root :=
  RadixTree.Unshared.setEntry hu hpg rfl i e

end

theorem Fresh.write (hf : Fresh m root) (hu : Unshared m root)
    (hpg : node next m.word root (path va) = some pg) (i : Fin 512) (e : Word) :
    Fresh (m.write pg i e) root :=
  ⟨hf.1, fun q hq => ⟨(hf.2 q hq).1, fun ht => (hf.2 q hq).2 ((isTable_write hu hpg i e).mp ht)⟩⟩

/-! ## `mappages` -/

/-- Every page from `a` to the page `n` pages above it is mapped to the frames from `pa` on, and the
other entries are as in `m`. -/
def Mapped (m : Phys) (root a pa perm : Word) (n : ℕ) (m' : Phys) : Prop :=
  ∀ va : Word, va.toNat < 2 ^ 38 → lookup m' root va =
    if a.toNat ≤ va.toNat ∧ va.toNat < a.toNat + (n + 1) * 4096 then
      pa2pte (pa + (pgrounddown va - a)) ||| perm ||| PTE_V
    else lookup m root va

theorem toNat_add_pgsize (h : a.toNat < 2 ^ 38) : (a + PGSIZE).toNat = a.toNat + 4096 := by
  exact Nat.mod_eq_of_lt (by show a.toNat + 4096 < 2 ^ 64; omega)

theorem samePage_iff (ha : a.toNat % 4096 = 0) :
    SamePage a va ↔ a.toNat ≤ va.toNat ∧ va.toNat < a.toNat + 4096 := by
  unfold SamePage
  omega

theorem pgrounddown_of_samePage (ha : a.toNat % 4096 = 0) (h : SamePage a va) :
    pgrounddown va = a := by
  apply BitVec.eq_of_toNat_eq
  rw [toNat_pgrounddown]
  unfold SamePage at h
  omega

theorem mappagesLoop_spec {perm last : Word} (fuel : ℕ) {n : ℕ} {r : Bool} (hu : Unshared m root)
    (hf : Fresh m root) (ha : a.toNat % 4096 = 0) (hlast : last.toNat = a.toNat + n * 4096)
    (hend : last.toNat < 2 ^ 38) (h : mappagesLoop root last perm fuel a pa m = .ok (r, m')) :
    Unshared m' root ∧ Fresh m' root ∧ (r = true → Mapped m root a pa perm n m') := by
  induction fuel generalizing n a pa m with
  | zero => cases h
  | succ fuel ih =>
    have hva : a.toNat < 2 ^ 38 := by omega
    obtain ⟨pte, m1, hwalk, hkept, hptr⟩ := walk_alloc hu hf hva
    unfold mappagesLoop at h
    rw [hwalk] at h
    dsimp only [Bind.bind, Outcome.bind] at h
    cases pte with
    | none =>
      cases h
      exact ⟨hkept.unshared, hkept.fresh, fun h => by cases h⟩
    | some pte =>
      obtain ⟨pg, i⟩ := pte
      obtain ⟨rfl, hnode⟩ := hptr pg i rfl
      dsimp only at h
      split at h
      · cases h
      have hu2 := hkept.unshared.write hnode (px 0 a) (pa2pte pa ||| perm ||| PTE_V)
      have hf2 := hkept.fresh.write hkept.unshared hnode (px 0 a) (pa2pte pa ||| perm ||| PTE_V)
      have hlook : ∀ va : Word, va.toNat < 2 ^ 38 →
          lookup (m1.write pg (px 0 a) (pa2pte pa ||| perm ||| PTE_V)) root va =
            if SamePage a va then pa2pte pa ||| perm ||| PTE_V else lookup m root va := by
        intro va hva'
        rw [lookup_write hkept.unshared hva hnode _ hva', hkept.lookup va hva']
      split at h
      · next heq =>
        -- The last page.
        cases h
        refine ⟨hu2, hf2, fun _ va hva' => ?_⟩
        obtain rfl : n = 0 := by
          rw [heq] at hlast
          omega
        rw [hlook va hva']
        by_cases hsame : SamePage a va
        · rw [if_pos hsame, if_pos ((samePage_iff ha).mp hsame), pgrounddown_of_samePage ha hsame,
            BitVec.sub_self, BitVec.add_zero]
        · rw [if_neg hsame, if_neg fun hr => hsame ((samePage_iff ha).mpr hr)]
      · next hne =>
        obtain ⟨n, rfl⟩ : ∃ k, n = k + 1 := by
          cases n with
          | zero => exact absurd (BitVec.eq_of_toNat_eq (by omega)) hne
          | succ k => exact ⟨k, rfl⟩
        have hnext : (a + PGSIZE).toNat = a.toNat + 4096 := toNat_add_pgsize hva
        obtain ⟨hu', hf', hmap⟩ := ih (n := n) hu2 hf2 (by omega) (by omega) h
        refine ⟨hu', hf', fun hr va hva' => ?_⟩
        rw [hmap hr va hva', hnext, hlook va hva']
        by_cases hsame : SamePage a va
        · have hin := (samePage_iff ha).mp hsame
          rw [if_neg (by omega), if_pos hsame, if_pos (by omega), pgrounddown_of_samePage ha hsame,
            BitVec.sub_self, BitVec.add_zero]
        · have hout := mt (samePage_iff ha).mpr hsame
          rw [if_neg hsame]
          by_cases hin : a.toNat + 4096 ≤ va.toNat ∧ va.toNat < a.toNat + 4096 + (n + 1) * 4096
          · rw [if_pos hin, if_pos (by omega),
              show pa + PGSIZE + (pgrounddown va - (a + PGSIZE)) = pa + (pgrounddown va - a) by
                bv_omega]
          · rw [if_neg hin, if_neg (by omega)]

/-! ## `uvmunmap` -/

theorem kfree_word (h : m.kfree R pa = .ok m') (hq : q ≠ pa) : m'.word q = m.word q := by
  unfold Phys.kfree at h
  split at h
  · cases h
  dsimp only at h
  split at h
  · cases h
    exact Function.update_of_ne hq _ _
  · cases h
    rfl

theorem kfree_outside (hu : Unshared m root) (hpa : ¬ IsTable m root pa)
    (h : m.kfree R pa = .ok m') :
    Unshared m' root ∧
      (∀ σ, σ.length ≤ 2 → node next m'.word root σ = node next m.word root σ) ∧
      ∀ va : Word, va.toNat < 2 ^ 38 → lookup m' root va = lookup m root va := by
  have hword : ∀ τ q, τ.length ≤ 2 → node next m.word root τ = some q → m'.word q = m.word q := by
    intro τ q hτ hq
    apply kfree_word h
    rintro rfl
    exact hpa ⟨τ, hτ, hq⟩
  refine ⟨hu.of_outside hword, fun σ hσ => node_of_outside hword hσ, fun va hva => ?_⟩
  rw [lookup_eq m' root hva, lookup_eq m root hva, entry_of_outside hword le_rfl]

/-- The entries from `a` up to `stop` are 0, and the others are as in `m`. -/
def Unmapped (m : Phys) (root a stop : Word) (m' : Phys) : Prop :=
  ∀ va : Word, va.toNat < 2 ^ 38 → lookup m' root va =
    if a.toNat ≤ va.toNat ∧ va.toNat < stop.toNat then 0 else lookup m root va

theorem uvmunmapLoop_spec {stop : Word} {doFree : Bool} (fuel : ℕ) {n : ℕ} (hu : Unshared m root)
    (ha : a.toNat % 4096 = 0) (hstop : stop.toNat = a.toNat + n * 4096) (hend : stop.toNat ≤ 2 ^ 38)
    (hframes : doFree = true → ∀ va : Word, a.toNat ≤ va.toNat → va.toNat < stop.toNat →
      ¬ IsTable m root (pte2pa (lookup m root va)))
    (h : uvmunmapLoop R root stop doFree fuel a m = .ok m') :
    Unshared m' root ∧ Unmapped m root a stop m' := by
  induction fuel generalizing n a m with
  | zero => cases h
  | succ fuel ih =>
    unfold uvmunmapLoop at h
    by_cases hlt : a < stop
    · rw [if_pos hlt] at h
      rw [BitVec.lt_def] at hlt
      have hva : a.toNat < 2 ^ 38 := by omega
      rw [walk_find m root hva] at h
      cases hnode : node next m.word root (path a) with
      | none =>
        rw [hnode] at h
        cases h
      | some pg =>
        rw [hnode] at h
        change (if m.word pg (px 0 a) &&& PTE_V = 0 then _ else _) = _ at h
        have hentry : lookup m root a = m.word pg (px 0 a) := by
          rw [lookup_eq m root hva, entry, hnode]
          rfl
        split at h
        · cases h
        split at h
        · cases h
        -- The memory after the frame has been freed, if it has to be.
        obtain ⟨m1, hrest, hu1, hnodes, hsame⟩ : ∃ m1, uvmunmapLoop R root stop doFree fuel
            (a + PGSIZE) (m1.write pg (px 0 a) 0) = .ok m' ∧ Unshared m1 root ∧
            (∀ σ, σ.length ≤ 2 → node next m1.word root σ = node next m.word root σ) ∧
            ∀ va : Word, va.toNat < 2 ^ 38 → lookup m1 root va = lookup m root va := by
          cases doFree with
          | false => exact ⟨m, h, hu, fun _ _ => rfl, fun _ _ => rfl⟩
          | true =>
            obtain ⟨m1, hfree, h⟩ := Outcome.bind_eq_ok h
            rw [← hentry] at hfree
            exact ⟨m1, h, kfree_outside hu (hframes rfl a le_rfl hlt) hfree⟩
        have hnode1 : node next m1.word root (path a) = some pg := by rw [hnodes _ le_rfl, hnode]
        have hlook : ∀ va : Word, va.toNat < 2 ^ 38 →
            lookup (m1.write pg (px 0 a) 0) root va =
              if SamePage a va then 0 else lookup m root va := by
          intro va hva'
          rw [lookup_write hu1 hva hnode1 _ hva', hsame va hva']
        have htable : ∀ q, IsTable (m1.write pg (px 0 a) 0) root q ↔ IsTable m root q := by
          intro q
          rw [isTable_write hu1 hnode1]
          exact exists_congr fun σ => and_congr_right fun hσ => by rw [hnodes σ hσ]
        obtain ⟨n, rfl⟩ : ∃ k, n = k + 1 := by
          cases n with
          | zero => omega
          | succ k => exact ⟨k, rfl⟩
        have hnext : (a + PGSIZE).toNat = a.toNat + 4096 := toNat_add_pgsize hva
        have hframes' : doFree = true → ∀ va : Word, (a + PGSIZE).toNat ≤ va.toNat →
            va.toNat < stop.toNat → ¬ IsTable (m1.write pg (px 0 a) 0) root
              (pte2pa (lookup (m1.write pg (px 0 a) 0) root va)) := by
          intro hd va hlo hhi
          have hout : ¬ SamePage a va := by
            rw [samePage_iff ha]
            omega
          rw [htable, hlook va (by omega), if_neg hout]
          exact hframes hd va (by omega) hhi
        obtain ⟨hu', hmap⟩ := ih (n := n) (hu1.write hnode1 (px 0 a) 0) (by omega) (by omega)
          hframes' hrest
        refine ⟨hu', fun va hva' => ?_⟩
        rw [hmap va hva', hnext, hlook va hva']
        have hiff : SamePage a va ↔ _ := samePage_iff ha
        by_cases hsamepage : SamePage a va
        · have hin := hiff.mp hsamepage
          rw [if_neg (by omega), if_pos hsamepage, if_pos (by omega)]
        · have hout := mt hiff.mpr hsamepage
          rw [if_neg hsamepage]
          by_cases hin : a.toNat + 4096 ≤ va.toNat ∧ va.toNat < stop.toNat
          · rw [if_pos hin, if_pos (by omega)]
          · rw [if_neg hin, if_neg (by omega)]
    · rw [if_neg hlt] at h
      cases h
      rw [BitVec.lt_def] at hlt
      refine ⟨hu, fun va _ => ?_⟩
      rw [if_neg (by omega)]

/-! ## The loops end -/

theorem walk_ends (alloc : Bool) (root va : Word) (m : Phys) :
    (2 ^ 38 ≤ va.toNat ∧ walk alloc root va m = .fail (.panic "walk")) ∨
      va.toNat < 2 ^ 38 ∧ ∃ x, walk alloc root va m = .ok x := by
  unfold walk
  split
  · next h =>
    left
    exact ⟨h, rfl⟩
  · next h =>
    right
    refine ⟨Nat.lt_of_not_le h, ?_⟩
    split
    · exact ⟨_, rfl⟩
    · split <;> exact ⟨_, rfl⟩

theorem kfree_ends (R : Ram) (pa : Word) (m : Phys) : m.kfree R pa ≠ .blocked := by
  unfold Phys.kfree
  split
  · intro h
    cases h
  · dsimp only
    split <;>
    · intro h
      cases h

theorem mappagesLoop_ends {perm last : Word} (fuel : ℕ)
    (hfuel : 2 ^ 26 < min (a.toNat / 4096) (2 ^ 26) + fuel) :
    mappagesLoop root last perm fuel a pa m ≠ .blocked := by
  induction fuel generalizing a pa m with
  | zero => omega
  | succ fuel ih =>
    unfold mappagesLoop
    rcases walk_ends true root a m with ⟨-, hpanic⟩ | ⟨hlt, ⟨pte, m1⟩, hok⟩
    · rw [hpanic]
      intro h
      cases h
    · rw [hok]
      have hnext : (a + PGSIZE).toNat = a.toNat + 4096 := toNat_add_pgsize hlt
      dsimp only [Bind.bind, Outcome.bind]
      cases pte with
      | none =>
        intro h
        cases h
      | some pte =>
        dsimp only
        split
        · intro h
          cases h
        · split
          · intro h
            cases h
          · exact ih (by omega)

theorem uvmunmapLoop_ends {stop : Word} {doFree : Bool} (fuel : ℕ)
    (hfuel : 2 ^ 26 < min (a.toNat / 4096) (2 ^ 26) + fuel) :
    uvmunmapLoop R root stop doFree fuel a m ≠ .blocked := by
  induction fuel generalizing a m with
  | zero => omega
  | succ fuel ih =>
    unfold uvmunmapLoop
    split
    · rcases walk_ends false root a m with ⟨-, hpanic⟩ | ⟨hlt, ⟨pte, m1⟩, hok⟩
      · rw [hpanic]
        intro h
        cases h
      · rw [hok]
        have hnext : (a + PGSIZE).toNat = a.toNat + 4096 := toNat_add_pgsize hlt
        dsimp only [Bind.bind, Outcome.bind]
        cases pte with
        | none =>
          intro h
          cases h
        | some pte =>
          dsimp only
          split
          · intro h
            cases h
          split
          · intro h
            cases h
          cases doFree with
          | false => exact ih (by omega)
          | true =>
            cases hfree : m1.kfree R (pte2pa (m1.word pte.1 pte.2)) with
            | blocked => exact absurd hfree (kfree_ends R _ m1)
            | fail e =>
              intro h
              cases h
            | ok m2 => exact ih (by omega)
    · intro h
      cases h

theorem mappages_uvmunmap_end (R : Ram) (root va size pa perm npages : Word) (doFree : Bool)
    (m : Phys) : mappages root va size pa perm m ≠ .blocked ∧
      uvmunmap R root va npages doFree m ≠ .blocked := by
  constructor
  · unfold mappages
    split
    · intro h
      cases h
    · exact mappagesLoop_ends _ (by omega)
  · unfold uvmunmap
    split
    · intro h
      cases h
    · exact uvmunmapLoop_ends _ (by omega)

/-! ## Both as updates of a finite map -/

/-- The pages that `mappages` maps: from `PGROUNDDOWN(va)` to `PGROUNDDOWN(va + size - 1)`. -/
def InPages (va size va' : Word) : Prop :=
  pgrounddown va ≤ pgrounddown va' ∧ pgrounddown va' ≤ pgrounddown (va + size - 1)

instance (va size va' : Word) : Decidable (InPages va size va') :=
  inferInstanceAs (Decidable (_ ∧ _))

theorem toNat_last {size : Word} (hsize : size ≠ 0) (hrange : va.toNat + size.toNat ≤ 2 ^ 38) :
    (va + size - 1).toNat = va.toNat + size.toNat - 1 := by
  bv_omega

theorem inPages_iff {size va' : Word} (hsize : size ≠ 0)
    (hrange : va.toNat + size.toNat ≤ 2 ^ 38) : InPages va size va' ↔
      (pgrounddown va).toNat ≤ va'.toNat ∧ va'.toNat < (pgrounddown va).toNat +
        ((va.toNat + size.toNat - 1) / 4096 - va.toNat / 4096 + 1) * 4096 := by
  have hpos : size.toNat ≠ 0 := fun h => hsize (BitVec.eq_of_toNat_eq h)
  rw [InPages, BitVec.le_def, BitVec.le_def, toNat_pgrounddown, toNat_pgrounddown,
    toNat_pgrounddown, toNat_last hsize hrange]
  omega

theorem aligned_frame (hpa : pa % PGSIZE = 0) :
    pgrounddown (pa + (pgrounddown va - pgrounddown a)) =
      pa + (pgrounddown va - pgrounddown a) := by
  have hpa' : pa.toNat % 4096 = 0 := by simpa [PGSIZE] using congrArg BitVec.toNat hpa
  have hva := toNat_pgrounddown va
  have ha := toNat_pgrounddown a
  apply BitVec.eq_of_toNat_eq
  rw [toNat_pgrounddown, BitVec.toNat_add, BitVec.toNat_sub]
  omega

/-- In a tree without sharing, and with free pages that are not part of it, a `mappages` that
returns 0 maps the pages of its range to the frames from `pa` on and changes no other leaf entry;
whatever it returns, the tree stays without sharing. `uvmunmap` clears the leaf entries of its pages
and no others, and the tree stays without sharing, provided that a frame which it frees is not a
table page of the same tree. -/
theorem mappages_uvmunmap_finite_map (hu : Unshared m root) :
    (∀ (va size pa perm : Word) (ok : Bool) (m' : Phys), Fresh m root →
      va.toNat + size.toNat ≤ 2 ^ 38 → pa % PGSIZE = 0 →
      mappages root va size pa perm m = .ok (ok, m') →
        Unshared m' root ∧ (ok = true → ∀ va' : Word, va'.toNat < 2 ^ 38 →
          if InPages va size va' then
            lookup m' root va' =
              pa2pte (pa + (pgrounddown va' - pgrounddown va)) ||| perm ||| PTE_V ∧
            (perm.toNat < 2 ^ 10 →
              pte2pa (lookup m' root va') = pa + (pgrounddown va' - pgrounddown va) ∧
              pteFlags (lookup m' root va') = perm ||| PTE_V)
          else lookup m' root va' = lookup m root va')) ∧
    ∀ (R : Ram) (va npages : Word) (doFree : Bool) (m' : Phys),
      va.toNat + npages.toNat * 4096 ≤ 2 ^ 38 →
      (doFree = true → ∀ va' : Word, va.toNat ≤ va'.toNat →
        va'.toNat < va.toNat + npages.toNat * 4096 →
          ¬ IsTable m root (pte2pa (lookup m root va'))) →
      uvmunmap R root va npages doFree m = .ok m' →
        Unshared m' root ∧ ∀ va' : Word, va'.toNat < 2 ^ 38 → lookup m' root va' =
          if va.toNat ≤ va'.toNat ∧ va'.toNat < va.toNat + npages.toNat * 4096 then 0
          else lookup m root va' := by
  constructor
  · intro va size pa perm ok m' hf hrange hpa h
    unfold mappages at h
    split at h
    · cases h
    next hsize =>
    have hpos : size.toNat ≠ 0 := fun h => hsize (BitVec.eq_of_toNat_eq h)
    have hfirst := toNat_pgrounddown va
    have hlast := toNat_pgrounddown (va + size - 1)
    rw [toNat_last hsize hrange] at hlast
    obtain ⟨hu', -, hmap⟩ := mappagesLoop_spec _
      (n := (va.toNat + size.toNat - 1) / 4096 - va.toNat / 4096) hu hf (by omega) (by omega)
      (by omega) h
    refine ⟨hu', fun hok va' hva' => ?_⟩
    have hlook := hmap hok va' hva'
    simp only [← inPages_iff hsize hrange] at hlook
    split
    · next hin =>
      rw [if_pos hin] at hlook
      refine ⟨hlook, fun hperm => ?_⟩
      rw [hlook, BitVec.or_assoc]
      have hflags := toNat_or_PTE_V hperm
      exact ⟨(pte2pa_or hflags).trans (aligned_frame hpa), pteFlags_or hflags⟩
    · next hout => rw [hlook, if_neg hout]
  · intro R va npages doFree m' hrange hframes h
    unfold uvmunmap at h
    split at h
    · cases h
    next haligned =>
    have hva : va.toNat % 4096 = 0 := by
      rw [not_not] at haligned
      simpa [PGSIZE] using congrArg BitVec.toNat haligned
    have hstop : (va + npages * PGSIZE).toNat = va.toNat + npages.toNat * 4096 := by
      have hmul : (npages * PGSIZE).toNat = npages.toNat * 4096 := by
        exact Nat.mod_eq_of_lt (by show npages.toNat * 4096 < 2 ^ 64; omega)
      rw [BitVec.toNat_add, hmul]
      exact Nat.mod_eq_of_lt (by omega)
    rw [← hstop] at hframes ⊢
    exact uvmunmapLoop_spec _ hu hva hstop (by omega) hframes h

end

def emptyTable : Phys :=
  ⟨fun _ _ => 0, fun _ => 0, [0x87000000, 0x87001000, 0x87002000]⟩

theorem node_emptyTable {root pg : Word} {π : List (Fin 512)}
    (h : node next emptyTable.word root π = some pg) : π = [] ∧ pg = root := by
  cases π with
  | nil =>
    cases h
    exact ⟨rfl, rfl⟩
  | cons i π =>
    rw [node, show next (emptyTable.word root i) = none from next_zero] at h
    cases h

theorem emptyTable_unshared (root : Word) : Unshared emptyTable root := by
  intro π σ pg _ _ hπ hσ
  rw [(node_emptyTable hπ).1, (node_emptyTable hσ).1]

theorem emptyTable_fresh : Fresh emptyTable 0x87ff0000 := by
  have hfree : ∀ pg ∈ emptyTable.freelist, pg % PGSIZE = 0 ∧ pg ≠ 0x87ff0000 := by
    simp [emptyTable, PGSIZE]
  refine ⟨by decide, fun pg hpg => ⟨(hfree pg hpg).1, ?_⟩⟩
  rintro ⟨π, -, hπ⟩
  exact (hfree pg hpg).2 (node_emptyTable hπ).2

/-- Two pages are mapped in an empty table, and then the first of them is unmapped. -/
theorem mappages_uvmunmap_finite_map_two : ∃ m m' : Phys,
    mappages 0x87ff0000 0x1000 0x2000 0x80000000 0x16 emptyTable = .ok (true, m) ∧
    uvmunmap ⟨8, 16, 3, by decide⟩ 0x87ff0000 0x1000 1 false m = .ok m' ∧
    lookup m' 0x87ff0000 0x1234 = 0 ∧ pte2pa (lookup m' 0x87ff0000 0x2345) = 0x80001000 := by
  have hrun : (mappages 0x87ff0000 0x1000 0x2000 0x80000000 0x16 emptyTable).result.bind (fun x =>
      (uvmunmap ⟨8, 16, 3, by decide⟩ 0x87ff0000 0x1000 1 false x.2).result.map fun _ => x.1) =
      some true := by decide +kernel
  obtain ⟨⟨ok, m⟩, hmap, hrest⟩ := Option.bind_eq_some_iff.mp hrun
  obtain ⟨m', hunmap, hok⟩ := Option.map_eq_some_iff.mp hrest
  subst hok
  have hmap := Outcome.result_eq_some.mp hmap
  have hunmap := Outcome.result_eq_some.mp hunmap
  obtain ⟨hu, hlook⟩ := (mappages_uvmunmap_finite_map (emptyTable_unshared _)).1 _ _ _ _ _ _
    emptyTable_fresh (by decide) (by decide) hmap
  obtain ⟨-, hlook'⟩ := (mappages_uvmunmap_finite_map hu).2 _ _ _ _ _ (by decide)
    (fun h => by cases h) hunmap
  have h2 := hlook rfl 0x2345 (by decide +kernel)
  refine ⟨m, m', hmap, hunmap, ?_, ?_⟩
  · rw [hlook' _ (by decide +kernel), if_pos (by decide +kernel)]
  · rw [hlook' _ (by decide +kernel), if_neg (by decide +kernel), (h2.2 (by decide +kernel)).1]
    decide +kernel

end Xv6.Sv39
