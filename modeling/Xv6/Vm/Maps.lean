import Mathlib.Order.Interval.Finset.Nat
import Xv6.Vm.Owners

/-! # Page tables of processes

A page table of a process maps exactly the pages below its size. The functions that change user
mappings keep this, keep the counts exact, leave the pages of others as they are and do to the
address space what `Space` says.
-/

namespace Xv6.Vm
set_option autoImplicit false
open Function (update update_self update_of_ne update_apply)
open Kmem RefPool

/-- `pt` maps the first `n` user pages, and above them the trapframe. -/
structure PtOk (pt : PageTable) (n : ℕ) : Prop where
  wf : pt.Wf
  valid_iff : ∀ v, v < TRAPFRAME → ((pt.pte v).flags.v = true ↔ v < n)
  size_le : n ≤ TRAPFRAME
  writable : ∀ v, v < TRAPFRAME → (pt.pte v).flags.w = true → (pt.pte v).flags.cow = false
  high : ∀ v, TRAPFRAME ≤ v → (pt.pte v).flags.u = false ∧ (pt.pte v).flags.cow = false
  above : ∀ v, TRAPFRAME ≤ v →
    ((pt.pte v).flags.v = true ↔ v = TRAPFRAME ∨ v = TRAMPOLINE)
  leaf : ∀ v, (pt.pte v).flags.v = true → (pt.pte v).flags.r = true
  inj : ∀ v w, v < TRAPFRAME → w < TRAPFRAME → (pt.pte v).flags.v = true →
    (pt.pte w).flags.v = true → (pt.pte v).ppn = (pt.pte w).ppn → v = w

/-- What a function has to leave: a page table of `n` pages with the address space `m`, exact
counts, and unchanged pages of others. -/
structure Post (R : Ram) (M : Multiset (Share Ppn)) (k : Kmem) (n : ℕ) (m : Space) (k' : Kmem)
    (pt' : PageTable) : Prop where
  ok : PtOk pt' n
  exact : KOk R k' (pt'.shares + M)
  keeps : Keeps M k k'
  space : pt'.space k' = m

section Space
variable {R : Ram} {M : Multiset (Share Ppn)} {k k' : Kmem} {pt pt' : PageTable} {v n : ℕ} {e : Pte}

theorem shares_erase (pt : PageTable) (hv : v < TRAPFRAME) :
    (pt.pte v).share + (pt.setPte v .zero).shares = pt.shares := by
  rw [add_comm, setPte_shares pt hv, Pte.share_zero, zero_add]

theorem uses_share (he : e.flags.v = true) : uses e.share e.ppn = 1 := by
  rw [Pte.share, if_pos he]
  cases e.flags.cow <;> simp [uses, Share.page]

theorem uses_entry (pt : PageTable) (hv : v < TRAPFRAME) (he : (pt.pte v).flags.v = true) :
    0 < uses pt.shares (pt.pte v).ppn := by
  rw [← shares_erase pt hv, uses_add, uses_share he]
  omega

theorem allocatable_of_valid (hE : KOk R k (pt.shares + M)) (hv : v < TRAPFRAME)
    (he : (pt.pte v).flags.v = true) : R.Allocatable (pt.pte v).ppn := by
  obtain ⟨x, hx, hpage⟩ := Multiset.mem_map.mp (Multiset.count_pos.mp (uses_entry pt hv he))
  rw [← hpage]
  exact hE.own_valid x (Multiset.mem_add.mpr (.inl hx))

theorem Keeps.entry (h : Keeps (pt.shares + M) k k') (hv : v < TRAPFRAME)
    (he : (pt.pte v).flags.v = true) : k'.data (pt.pte v).ppn = k.data (pt.pte v).ppn := by
  refine h _ ?_
  have := uses_entry pt hv he
  rw [uses_add]
  omega

theorem Keeps.right {N : Multiset (Share Ppn)} (h : Keeps (N + M) k k') : Keeps M k k' :=
  h.mono (Multiset.le_add_left _ _)

theorem uses_private (hE : KOk R k (pt.shares + M)) (hv : v < TRAPFRAME)
    (he : (pt.pte v).flags.v = true) (hcow : (pt.pte v).flags.cow = false) :
    uses ((pt.setPte v .zero).shares + M) (pt.pte v).ppn = 0 := by
  have hmem : .sole (pt.pte v).ppn ∈ pt.shares + M := by
    rw [← shares_erase pt hv]
    simp [Pte.share, he, hcow]
  have hone := hE.sole_uses _ hmem
  rw [← shares_erase pt hv, add_assoc, uses_add, uses_share he] at hone
  omega

theorem space_congr (hpte : ∀ w, w < TRAPFRAME → pt'.pte w = pt.pte w)
    (hdata : ∀ w, w < TRAPFRAME → (pt.pte w).flags.v = true →
      k'.data (pt.pte w).ppn = k.data (pt.pte w).ppn) : pt'.space k' = pt.space k := by
  funext w
  simp only [PageTable.space]
  by_cases hw : w < TRAPFRAME
  · rw [hpte w hw]
    by_cases hvalid : (pt.pte w).flags.v = true
    · rw [if_pos ⟨hw, hvalid⟩, if_pos ⟨hw, hvalid⟩, hdata w hw hvalid]
    · rw [if_neg (fun h => hvalid h.2), if_neg (fun h => hvalid h.2)]
  · rw [if_neg (fun h => hw h.1), if_neg (fun h => hw h.1)]

theorem space_update (pt : PageTable) (k : Kmem) (e : Pte) (hv : v < TRAPFRAME)
    (he : e.flags.v = true)
    (hpte : ∀ w, w < TRAPFRAME → pt'.pte w = if w = v then e else pt.pte w)
    (hdata : ∀ w, w < TRAPFRAME → w ≠ v → (pt.pte w).flags.v = true →
      k'.data (pt.pte w).ppn = k.data (pt.pte w).ppn) :
    pt'.space k' = update (pt.space k) v (some ⟨k'.data e.ppn, e.flags⟩) := by
  funext w
  by_cases hw : w < TRAPFRAME
  · have hp := hpte w hw
    by_cases h : w = v
    · subst h
      rw [if_pos rfl] at hp
      simp [PageTable.space, hp, hw, he]
    · rw [if_neg h] at hp
      simp only [PageTable.space, update_of_ne h, hp]
      by_cases hvalid : (pt.pte w).flags.v = true
      · rw [if_pos ⟨hw, hvalid⟩, if_pos ⟨hw, hvalid⟩, hdata w hw h hvalid]
      · rw [if_neg (fun h => hvalid h.2), if_neg (fun h => hvalid h.2)]
  · have h : w ≠ v := by omega
    rw [update_of_ne h]
    simp [PageTable.space, hw]

theorem PtOk.congr (hok : PtOk pt n) (hwf : pt'.Wf) (hpte : pt'.pte = pt.pte) : PtOk pt' n := by
  obtain ⟨-, hvalid, hsize, hwritable, hhigh, habove, hleaf, hinj⟩ := hok
  rw [← hpte] at hvalid hwritable hhigh habove hleaf hinj
  exact ⟨hwf, hvalid, hsize, hwritable, hhigh, habove, hleaf, hinj⟩

theorem PtOk.update {n' : ℕ} (hok : PtOk pt n) (hwf : pt'.Wf) (hpte : pt'.pte = update pt.pte v e)
    (hv : v < TRAPFRAME) (he : e.flags.v = true) (hr : e.flags.r = true)
    (hcow : e.flags.w = true → e.flags.cow = false)
    (hother : ∀ w, w < TRAPFRAME → w ≠ v → (pt.pte w).flags.v = true → (pt.pte w).ppn ≠ e.ppn)
    (hn' : n' ≤ TRAPFRAME) (hsize : ∀ w, w < n' ↔ w = v ∨ w < n) : PtOk pt' n' := by
  refine ⟨hwf, ?_, hn', ?_, ?_, ?_, ?_, ?_⟩
  · intro w hw
    rw [hpte, hsize]
    by_cases hwv : w = v
    · simp [hwv, he]
    · simp [hwv, hok.valid_iff w hw]
  · intro w hw
    rw [hpte]
    by_cases hwv : w = v
    · simpa [hwv] using hcow
    · simpa [hwv] using hok.writable w hw
  · intro w hw
    have hwv : w ≠ v := by omega
    rw [hpte, update_of_ne hwv]
    exact hok.high w hw
  · intro w hw
    have hwv : w ≠ v := by omega
    rw [hpte, update_of_ne hwv]
    exact hok.above w hw
  · intro w
    rw [hpte]
    by_cases hwv : w = v
    · simp [hwv, hr]
    · simpa [hwv] using hok.leaf w
  · intro w1 w2 hw1 hw2
    rw [hpte]
    by_cases h1 : w1 = v <;> by_cases h2 : w2 = v
    · intro _ _ _
      rw [h1, h2]
    · rw [h1, update_self, update_of_ne h2]
      intro _ hvalid heq
      exact absurd heq.symm (hother w2 hw2 h2 hvalid)
    · rw [h2, update_self, update_of_ne h1]
      intro hvalid _ heq
      exact absurd heq (hother w1 hw1 h1 hvalid)
    · rw [update_of_ne h1, update_of_ne h2]
      exact hok.inj w1 w2 hw1 hw2

theorem PageTable.Wf.reaches (hwf : pt.Wf) (hv : (pt.pte v).flags.v = true) :
    pt.reaches v = true := by
  have hne : pt.pte v ≠ .zero := by
    intro h
    rw [h] at hv
    exact Bool.noConfusion hv
  have h0 := hwf.pte_parent v hne
  have h1 := hwf.level0_parent _ h0
  simp [PageTable.reaches, Option.isSome_iff_ne_none, h0, h1]

theorem PtOk.reaches (hok : PtOk pt n) (hv : (pt.pte v).flags.v = true) : pt.reaches v = true :=
  hok.wf.reaches hv

theorem Pte.ne_table (hr : e.flags.r = true) : e.flags ≠ { Flags.none with v := true } := by
  intro h
  rw [h] at hr
  exact Bool.noConfusion hr

theorem PtOk.top (hok : PtOk pt n) : (pt.pte TRAPFRAME).flags.v = true :=
  (hok.above TRAPFRAME le_rfl).mpr (.inl rfl)

theorem PtOk.not_valid (hok : PtOk pt n) (hv : n ≤ v) (hlt : v < TRAPFRAME) :
    pt.pte v = .zero := by
  refine hok.wf.pte_zero v ?_
  have h := (hok.valid_iff v hlt).not
  simpa using h.mpr (by omega)

theorem PtOk.ppn_ne (hok : PtOk pt n) (hv : v < TRAPFRAME) (he : (pt.pte v).flags.v = true) (w : ℕ)
    (hw : w < TRAPFRAME) (hne : w ≠ v) (hvalid : (pt.pte w).flags.v = true) :
    (pt.pte w).ppn ≠ (pt.pte v).ppn :=
  fun h => hne (hok.inj w v hw hv hvalid he h)

theorem ppn_ne_of_unused {pg : Ppn} (hzero : uses (pt.shares + M) pg = 0) (w : ℕ)
    (hw : w < TRAPFRAME) (hvalid : (pt.pte w).flags.v = true) : (pt.pte w).ppn ≠ pg := by
  rintro rfl
  have h := uses_entry pt hw hvalid
  rw [uses_add] at hzero
  omega

theorem PtOk.size_le_ram (hok : PtOk pt n) (hE : KOk R k (pt.shares + M)) :
    n ≤ R.stop - R.first := by
  have hle := hok.size_le
  have hvalid : ∀ v, v < n → v < TRAPFRAME ∧ (pt.pte v).flags.v = true := by
    intro v hv
    have hlt : v < TRAPFRAME := by omega
    exact ⟨hlt, (hok.valid_iff v hlt).mpr hv⟩
  have hcard : (Finset.range n).card ≤ (Finset.Ico R.first R.stop).card := by
    refine Finset.card_le_card_of_injOn (fun v => (pt.pte v).ppn) ?_ ?_
    · intro v hv
      obtain ⟨hlt, he⟩ := hvalid v (by simpa using hv)
      exact Finset.mem_coe.mpr (Finset.mem_Ico.mpr (allocatable_of_valid hE hlt he))
    · intro v hv w hw h
      obtain ⟨hlt, he⟩ := hvalid v (by simpa using hv)
      obtain ⟨hlt', he'⟩ := hvalid w (by simpa using hw)
      exact hok.inj v w hlt hlt' he he' h
  simpa using hcard

theorem PtOk.valid_of_ne (hok : PtOk pt n) (h : pt.pte v ≠ .zero) :
    (pt.pte v).flags.v = true := by
  by_contra hv
  exact h (hok.wf.pte_zero v (by simpa using hv))

theorem PtOk.lt_of_cow (hok : PtOk pt n) (hcow : (pt.pte v).flags.cow = true) :
    v < TRAPFRAME ∧ (pt.pte v).flags.v = true ∧ v < n := by
  have hv : v < TRAPFRAME := by
    by_contra hv
    rw [(hok.high v (not_lt.mp hv)).2] at hcow
    exact Bool.noConfusion hcow
  have hvalid : (pt.pte v).flags.v = true := by
    refine hok.valid_of_ne fun h => ?_
    rw [h] at hcow
    exact Bool.noConfusion hcow
  exact ⟨hv, hvalid, (hok.valid_iff v hv).mp hvalid⟩

end Space

/-! ## Mapping a page of its own -/

section Map
variable {R : Ram} {M : Multiset (Share Ppn)} {k : Kmem} {pt : PageTable} {v n : ℕ}

/-- What mapping `pa`, which has no other use, at page `v` does. The share of the entry that is
replaced is left to the caller. -/
structure MapPost (R : Ram) (M : Multiset (Share Ppn)) (k : Kmem) (pt : PageTable) (v : ℕ) (e : Pte)
    (r : Bool × Kmem × PageTable) : Prop where
  wf : r.2.2.Wf
  keeps : Keeps (.sole e.ppn ::ₘ (pt.shares + M)) k r.2.1
  oom : r.2.1.oom = false → k.oom = false ∧ r.1 = true
  mapped : r.1 = true → r.2.2.pte = update pt.pte v e ∧
    KOk R r.2.1 ((pt.pte v).share + (r.2.2.shares + M))
  failed : r.1 = false → r.2.2.pte = pt.pte ∧ KOk R r.2.1 (.sole e.ppn ::ₘ (r.2.2.shares + M))

theorem mapPage_own_ensures {pa : Ppn} (perm : Flags) (hcow : perm.cow = false) (hwf : pt.Wf)
    (hv : v < TRAPFRAME) (hfree : (pt.pte v).flags.v = true → (pt.pte v).flags.cow = true)
    (hE : KOk R k (.sole pa ::ₘ (pt.shares + M))) :
    (mapPage v pa perm k pt).Ensures (Expected R)
      (MapPost R M k pt v ⟨pa, { perm with v := true }⟩) := by
  set e : Pte := ⟨pa, { perm with v := true }⟩ with he
  have hshare : e.share = {.sole pa} := by simp [Pte.share, he, hcow]
  have hcons : ∀ N, .sole pa ::ₘ (N + M) = N + (.sole pa ::ₘ M) := fun N => by
    rw [Multiset.add_cons]
  rw [hcons] at hE
  refine (mapPage_ensures hwf hfree hE).mono ?_
  rintro ⟨ok, k1, pt2⟩ ⟨pt1, hpost, htrue, hfalse⟩
  have hkeeps : Keeps (.sole pa ::ₘ (pt.shares + M)) k k1 := by
    rw [hcons]
    exact hpost.keeps
  cases ok with
  | false =>
    obtain ⟨rfl, hoom⟩ := hfalse rfl
    refine ⟨hpost.wf, hkeeps, fun ho => ?_, by simp, fun _ => ⟨hpost.pte, ?_⟩⟩
    · rw [hoom] at ho
      exact Bool.noConfusion ho
    · show KOk R k1 (.sole pa ::ₘ (pt2.shares + M))
      rw [hcons]
      exact hpost.exact
  | true =>
    obtain ⟨hreach, rfl⟩ := htrue rfl
    have hset := setPte_shares pt1 hv e
    have hpte : pt1.pte v = pt.pte v := by rw [hpost.pte]
    refine ⟨setPte_wf hpost.wf hreach (by simp), hkeeps, fun ho => ⟨hpost.oom ho, rfl⟩,
      fun _ => ⟨?_, ?_⟩, by simp⟩
    · show update pt1.pte v e = _
      rw [hpost.pte]
    · have hsum : (pt.pte v).share + ((pt1.setPte v e).shares + M) =
          pt1.shares + (.sole pa ::ₘ M) := by
        rw [← hpte, ← add_assoc, add_comm (pt1.pte v).share, hset, hshare,
          ← Multiset.singleton_add]
        abel
      show KOk R k1 ((pt.pte v).share + ((pt1.setPte v e).shares + M))
      rw [hsum]
      exact hpost.exact

theorem MapPost.space {e : Pte} {r : Bool × Kmem × PageTable} (h : MapPost R M k pt v e r)
    (hr : r.1 = true) (hv : v < TRAPFRAME) (he : e.flags.v = true) :
    r.2.2.space r.2.1 = update (pt.space k) v (some ⟨k.data e.ppn, e.flags⟩) := by
  have hdata : r.2.1.data e.ppn = k.data e.ppn := by
    refine h.keeps _ ?_
    exact uses_pos (x := .sole e.ppn) (Multiset.mem_cons_self _ _)
  rw [← hdata]
  refine space_update pt k e hv he ?_ ?_
  · intro w hw
    rw [(h.mapped hr).1, update_apply]
  · intro w hw _ hvalid
    refine Keeps.entry (M := M) (h.keeps.mono ?_) hw hvalid
    exact Multiset.le_cons_self _ _

end Map

/-! ## Releasing the top pages -/

section Unmap
variable {R : Ram} {M : Multiset (Share Ppn)} {k : Kmem} {pt : PageTable} {v n : ℕ}

/-- What unmapping the top user pages does: only the first `v` are left. -/
structure UnmapPost (R : Ram) (M : Multiset (Share Ppn)) (k : Kmem) (pt : PageTable) (v n : ℕ)
    (r : Kmem × PageTable) : Prop where
  wf : r.2.Wf
  exact : KOk R r.1 (r.2.shares + M)
  pte : ∀ w, r.2.pte w = if v ≤ w ∧ w < v + n then .zero else pt.pte w
  keeps : Keeps (r.2.shares + M) k r.1
  le : r.2.shares ≤ pt.shares
  oom : r.1.oom = k.oom

theorem uvmunmap_free_ensures (hwf : pt.Wf) (hv : v + n ≤ TRAPFRAME)
    (hmapped : ∀ w, v ≤ w → w < v + n → (pt.pte w).flags.v = true ∧ (pt.pte w).flags.r = true)
    (hE : KOk R k (pt.shares + M)) :
    (uvmunmap R true n v k pt).Ensures (Expected R) (UnmapPost R M k pt v n) := by
  -- Each round gives up the share of one entry; the rest of the table and `M` keep theirs.
  induction n generalizing v k pt with
  | zero =>
    refine ⟨hwf, hE, fun w => ?_, Keeps.refl, le_rfl, rfl⟩
    rw [if_neg (by omega)]
  | succ n ih =>
    obtain ⟨hvalid, hr⟩ := hmapped v le_rfl (by omega)
    have hreach := hwf.reaches hvalid
    rw [uvmunmap, walk_find, if_neg (by simp only [TRAPFRAME] at hv; omega)]
    refine Outcome.ensures_bind (Outcome.ensures_ok.mpr ?_)
    dsimp only
    rw [hreach, hvalid, if_neg (by simp), if_neg (by simp), if_neg (Pte.ne_table hr)]
    have herase := shares_erase pt (v := v) (by omega)
    have hE' := hE
    rw [← herase, Pte.share, if_pos hvalid, Multiset.singleton_add, Multiset.cons_add] at hE'
    rw [if_pos rfl]
    have hpage : (pt.pte v).ppn = (if (pt.pte v).flags.cow then Share.shared (pt.pte v).ppn
        else Share.sole (pt.pte v).ppn).page := by
      cases (pt.pte v).flags.cow <;> rfl
    rw [hpage]
    refine Outcome.ensures_bind (((kfree_ensures hE').mono ?_).weaken fun _ h => h.elim)
    rintro k1 ⟨hE1, hkeep, hoom⟩
    refine (ih (setPte_wf hwf hreach fun _ => rfl) (by omega) ?_ hE1).mono ?_
    · intro w hw hw'
      have hne : w ≠ v := by omega
      simpa [PageTable.setPte, hne] using hmapped w (by omega) (by omega)
    rintro ⟨k2, pt2⟩ hpost
    have hle : (pt.setPte v .zero).shares ≤ pt.shares := by
      rw [← herase]
      exact Multiset.le_add_left _ _
    refine ⟨hpost.wf, hpost.exact, fun w => ?_, ?_, hpost.le.trans hle, hpost.oom.trans hoom⟩
    · rw [hpost.pte w]
      by_cases hw : w = v
      · subst hw
        simp [PageTable.setPte]
      · simp only [PageTable.setPte, update_of_ne hw]
        congr 1
        apply propext
        omega
    · exact (hkeep.mono (add_le_add_left hpost.le M)).trans hpost.keeps

theorem uvmunmap_top_ensures (hok : PtOk pt n) (hv : v ≤ n) (hE : KOk R k (pt.shares + M)) :
    (uvmunmap R true (n - v) v k pt).Ensures (Expected R) fun r =>
      Post R M k v ((pt.space k).truncate v) r.1 r.2 ∧ r.1.oom = k.oom := by
  have hn := hok.size_le
  refine (uvmunmap_free_ensures hok.wf (by omega) ?_ hE).mono ?_
  · intro w _ hw
    have he := (hok.valid_iff w (by omega)).mpr (by omega)
    exact ⟨he, hok.leaf w he⟩
  rintro ⟨k', pt'⟩ hpost
  have hlow : ∀ w, w < v → pt'.pte w = pt.pte w := by
    intro w hw
    rw [hpost.pte w, if_neg (by omega)]
  have hhigh : ∀ w, TRAPFRAME ≤ w → pt'.pte w = pt.pte w := by
    intro w hw
    rw [hpost.pte w, if_neg (by omega)]
  have hmid : ∀ w, v ≤ w → w < TRAPFRAME → pt'.pte w = .zero := by
    intro w hvw hw
    rw [hpost.pte w]
    split
    · rfl
    · refine hok.wf.pte_zero w ?_
      have := (hok.valid_iff w hw).not
      simpa using this.mpr (by omega)
  have hkept : ∀ w, (pt'.pte w).flags.v = true → pt'.pte w = pt.pte w := by
    intro w hw
    rw [hpost.pte w] at hw ⊢
    split
    · next h =>
      rw [if_pos h] at hw
      exact Bool.noConfusion hw
    · rfl
  refine ⟨⟨⟨hpost.wf, ?_, by omega, ?_, ?_, ?_, ?_, ?_⟩, hpost.exact, hpost.keeps.right, ?_⟩,
    hpost.oom⟩
  · intro w hw
    by_cases hwv : w < v
    · rw [hlow w hwv, hok.valid_iff w hw]
      omega
    · rw [hmid w (by omega) hw]
      simp [Pte.zero, Flags.none, hwv]
  · intro w hw
    by_cases hwv : w < v
    · rw [hlow w hwv]
      exact hok.writable w hw
    · rw [hmid w (by omega) hw]
      simp [Pte.zero, Flags.none]
  · intro w hw
    rw [hhigh w hw]
    exact hok.high w hw
  · intro w hw
    rw [hhigh w hw]
    exact hok.above w hw
  · intro w hw
    have heq := hkept w hw
    rw [heq] at hw ⊢
    exact hok.leaf w hw
  · intro w1 w2 hlt1 hlt2 hw1 hw2
    have heq1 := hkept w1 hw1
    have heq2 := hkept w2 hw2
    rw [heq1] at hw1 ⊢
    rw [heq2] at hw2 ⊢
    exact hok.inj w1 w2 hlt1 hlt2 hw1 hw2
  · funext w
    simp only [PageTable.space, Space.truncate]
    by_cases hwv : w < v
    · rw [if_pos hwv, ← hlow w hwv]
      split
      · next h => rw [hpost.keeps.entry h.1 h.2]
      · rfl
    · rw [if_neg hwv, if_neg]
      rintro ⟨hw, hvalid⟩
      rw [hmid w (by omega) hw] at hvalid
      exact Bool.noConfusion hvalid

end Unmap
end Xv6.Vm
