import Xv6.Vm.Grow

/-! # Sharing the pages of the parent -/

namespace Xv6.Vm
set_option autoImplicit false
open Function (update update_self update_of_ne update_apply)
open Kmem RefPool

section
variable {R : Ram} {M : Multiset (Share Ppn)} {k : Kmem} {pt : PageTable} {v n : ℕ}

def Pte.shareEntry (e : Pte) : Pte := { e with flags := e.flags.share }

theorem KOk.shareEntry (hv : v < TRAPFRAME) (he : (pt.pte v).flags.v = true)
    (hE : KOk R k (pt.shares + M)) :
    KOk R k ((pt.setPte v (pt.pte v).shareEntry).shares + M) := by
  set x : Share Ppn := if (pt.pte v).flags.cow then .shared (pt.pte v).ppn
    else .sole (pt.pte v).ppn with hx
  have hpage : x.page = (pt.pte v).ppn := by
    rw [hx]
    cases (pt.pte v).flags.cow <;> rfl
  have hold : pt.shares = x ::ₘ (pt.setPte v .zero).shares := by
    rw [← shares_erase pt hv, Pte.share, if_pos he, Multiset.singleton_add]
  have hshare : (pt.pte v).shareEntry.share = {.shared (pt.pte v).ppn} := by
    simp [Pte.share, Pte.shareEntry, Flags.share, he]
  have hnew : (pt.setPte v (pt.pte v).shareEntry).shares =
      .shared (pt.pte v).ppn ::ₘ (pt.setPte v .zero).shares := by
    have h := setPte_shares pt hv (pt.pte v).shareEntry
    rw [hshare, add_comm] at h
    rw [← Multiset.singleton_add]
    refine add_left_cancel (a := (pt.pte v).share) ?_
    rw [h, ← shares_erase pt hv]
    abel
  rw [hold, Multiset.cons_add] at hE
  rw [hnew, Multiset.cons_add, ← hpage]
  exact hE.relax

theorem shareEntry_wf (hok : PtOk pt n) (he : (pt.pte v).flags.v = true) :
    (pt.setPte v (pt.pte v).shareEntry).Wf := by
  refine setPte_wf hok.wf (hok.reaches he) fun h => ?_
  simp [Pte.shareEntry, Flags.share, he] at h

theorem shareEntry_ptOk (hok : PtOk pt n) (hv : v < n) :
    PtOk (pt.setPte v (pt.pte v).shareEntry) n := by
  have hle := hok.size_le
  have he : (pt.pte v).flags.v = true := (hok.valid_iff v (by omega)).mpr hv
  refine hok.update (shareEntry_wf hok he) rfl (by omega) he (hok.leaf v he) ?_
    (hok.ppn_ne (by omega) he) hle fun w => ?_
  · intro h
    simp [Pte.shareEntry, Flags.share] at h
  · constructor
    · exact Or.inr
    · rintro (rfl | h)
      · exact hv
      · exact h

variable {m : Space}

theorem shareTo_self : m.shareTo 0 = m := by
  funext v
  simp [Space.shareTo]

theorem shareEntry_space (hok : PtOk pt n) (hv : v < n) (hm : pt.space k = m.shareTo v) :
    (pt.setPte v (pt.pte v).shareEntry).space k = m.shareTo (v + 1) ∧
      m v = some ⟨k.data (pt.pte v).ppn, (pt.pte v).flags⟩ := by
  have hle := hok.size_le
  have hlt : v < TRAPFRAME := by omega
  have he : (pt.pte v).flags.v = true := (hok.valid_iff v hlt).mpr hv
  have hmv : m v = some ⟨k.data (pt.pte v).ppn, (pt.pte v).flags⟩ := by
    have h := congrFun hm v
    rw [PageTable.space, if_pos ⟨hlt, he⟩, Space.shareTo, if_neg (lt_irrefl v)] at h
    exact h.symm
  refine ⟨?_, hmv⟩
  rw [space_update pt k (pt.pte v).shareEntry hlt he ?_ fun _ _ _ _ => rfl, hm]
  · funext w
    by_cases hw : w = v
    · subst hw
      simp [Space.shareTo, Space.share, hmv, Pte.shareEntry]
    · simp only [update_of_ne hw, Space.shareTo]
      congr 1
      apply propext
      omega
  · intro w _
    simp [PageTable.setPte, update_apply]

/-- The outcome of `uvmcopy` from an address space `m` of `n` pages. -/
structure CopyPost (R : Ram) (M : Multiset (Share Ppn)) (k : Kmem) (m : Space) (n : ℕ)
    (r : Bool × Kmem × PageTable × PageTable) : Prop where
  old_ok : PtOk r.2.2.1 n
  exact : KOk R r.2.1 (r.2.2.2.shares + (r.2.2.1.shares + M))
  keeps : Keeps M k r.2.1
  done : r.1 = true → r.2.2.1.space r.2.1 = m.shareTo n ∧ PtOk r.2.2.2 n ∧
    r.2.2.2.space r.2.1 = m.share.truncate n
  undone : r.1 = false → (∃ j, r.2.2.1.space r.2.1 = m.shareTo j) ∧ PtOk r.2.2.2 0 ∧
    r.2.2.2.space r.2.1 = .empty
  oom : r.2.1.oom = false → k.oom = false ∧ r.1 = true

theorem uvmcopy_map_ensures {old new : PageTable} {i : ℕ} (hold : PtOk old n) (hnew : PtOk new i)
    (hi : i < n) (hE : KOk R k (new.shares + ((old.setPte i (old.pte i).shareEntry).shares + M)))
    (hmi : m i = some ⟨k.data (old.pte i).ppn, (old.pte i).flags⟩)
    (hspace : new.space k = m.share.truncate i)
    (hppn : ∀ w, w < i → (new.pte w).ppn = (old.pte w).ppn) :
    (mapPage i (old.pte i).ppn { (old.pte i).flags.share with v := false } k new).Ensures
      (Expected R) fun r =>
        Keeps (new.shares + ((old.setPte i (old.pte i).shareEntry).shares + M)) k r.2.1 ∧
        (r.2.1.oom = false → k.oom = false ∧ r.1 = true) ∧
        (r.1 = true → PtOk r.2.2 (i + 1) ∧
          KOk R (r.2.1.refInc (old.pte i).ppn)
            (r.2.2.shares + ((old.setPte i (old.pte i).shareEntry).shares + M)) ∧
          r.2.2.space r.2.1 = m.share.truncate (i + 1) ∧
          ∀ w, w < i + 1 → (r.2.2.pte w).ppn = (old.pte w).ppn) ∧
        (r.1 = false → PtOk r.2.2 i ∧
          KOk R r.2.1 (r.2.2.shares + ((old.setPte i (old.pte i).shareEntry).shares + M))) := by
  have hle := hold.size_le
  have hlt : i < TRAPFRAME := by omega
  have hvalid : (old.pte i).flags.v = true := (hold.valid_iff i hlt).mpr hi
  have hflags : { (old.pte i).flags.share with v := true } = (old.pte i).flags.share := by
    rw [← hvalid]
    rfl
  have hfree : (new.pte i).flags.v = true → (new.pte i).flags.cow = true := by
    rw [hnew.not_valid le_rfl hlt]
    exact fun h => h
  refine (mapPage_ensures hnew.wf hfree hE).mono ?_
  rintro ⟨ok, k1, new2⟩ ⟨new1, hpost, htrue, hfalse⟩
  cases ok with
  | false =>
    obtain ⟨rfl, hoom⟩ := hfalse rfl
    refine ⟨hpost.keeps, fun ho => ?_, by simp, fun _ => ⟨hnew.congr hpost.wf hpost.pte,
      hpost.exact⟩⟩
    rw [hoom] at ho
    exact Bool.noConfusion ho
  | true =>
    obtain ⟨hreach, rfl⟩ := htrue rfl
    have he : (⟨(old.pte i).ppn, { (old.pte i).flags.share with v := true }⟩ : Pte) =
        (old.pte i).shareEntry := by
      rw [hflags]
      rfl
    have hshare : (old.pte i).shareEntry.share = {.shared (old.pte i).ppn} := by
      simp [Pte.share, Pte.shareEntry, Flags.share, hvalid]
    have hnone : new1.pte i = .zero := by
      rw [hpost.pte]
      exact hnew.not_valid le_rfl hlt
    simp only [he] at *
    have hwf : (new1.setPte i (old.pte i).shareEntry).Wf := by
      refine setPte_wf hpost.wf hreach fun h => ?_
      simp [Pte.shareEntry, Flags.share, hvalid] at h
    have hpte : (new1.setPte i (old.pte i).shareEntry).pte =
        update new.pte i (old.pte i).shareEntry := by
      rw [← hpost.pte]
      rfl
    refine ⟨hpost.keeps, fun ho => ⟨hpost.oom ho, by simp⟩, fun _ => ⟨?_, ?_, ?_, ?_⟩, by simp⟩
    · refine hnew.update hwf hpte hlt hvalid (hold.leaf i hvalid) ?_ ?_ (by omega)
        fun w => by omega
      · intro h
        simp [Pte.shareEntry, Flags.share] at h
      · intro w hw hne hwvalid
        have hwi := (hnew.valid_iff w hw).mp hwvalid
        have hwold := (hold.valid_iff w hw).mpr (by omega)
        rw [hppn w hwi]
        exact hold.ppn_ne hlt hvalid w hw hne hwold
    · have hmem : .shared (old.pte i).ppn ∈
          new1.shares + ((old.setPte i (old.pte i).shareEntry).shares + M) := by
        rw [← shares_erase (old.setPte i (old.pte i).shareEntry) hlt]
        simp [PageTable.setPte, hshare]
      have hset := setPte_shares new1 hlt (old.pte i).shareEntry
      rw [hnone, Pte.share_zero, add_zero, hshare, Multiset.singleton_add] at hset
      rw [hset, Multiset.cons_add]
      exact Exact.dup hpost.exact hmem
    · have hdata : k1.data (old.pte i).ppn = k.data (old.pte i).ppn := by
        refine hpost.keeps _ ?_
        have hentry : (old.setPte i (old.pte i).shareEntry).pte i = (old.pte i).shareEntry := by
          simp [PageTable.setPte]
        have hpos : 0 < uses (old.setPte i (old.pte i).shareEntry).shares (old.pte i).ppn := by
          have h := uses_entry (old.setPte i (old.pte i).shareEntry) hlt
            (by rw [hentry]; exact hvalid)
          rwa [hentry] at h
        simp only [uses_add]
        omega
      rw [space_update new k (old.pte i).shareEntry hlt hvalid ?_ ?_, hspace]
      · funext w
        by_cases hw : w = i
        · subst hw
          simp [Space.truncate, Space.share, hmi, Pte.shareEntry, hdata]
        · simp only [update_of_ne hw, Space.truncate]
          congr 1
          apply propext
          omega
      · intro w _
        rw [hpte, update_apply]
      · intro w hw _ hv
        exact hpost.keeps.entry hw hv
    · intro w hw
      rw [hpte]
      by_cases hwi : w = i
      · rw [hwi, update_self]
        rfl
      · rw [update_of_ne hwi]
        exact hppn w (by omega)

theorem uvmcopyLoop_ensures {old new : PageTable} (n : ℕ) {i N : ℕ} (hN : i + n = N)
    (hold : PtOk old N) (hnew : PtOk new i) (hE : KOk R k (new.shares + (old.shares + M)))
    (hmo : old.space k = m.shareTo i) (hmn : new.space k = m.share.truncate i)
    (hppn : ∀ w, w < i → (new.pte w).ppn = (old.pte w).ppn) :
    (uvmcopyLoop R n i k old new).Ensures (Expected R) (CopyPost R M k m N) := by
  -- The first `i` pages are shared; a round shares page `i` or takes back those of the child.
  induction n generalizing i k old new with
  | zero =>
    obtain rfl : i = N := by omega
    exact ⟨hold, hE, Keeps.refl, fun _ => ⟨hmo, hnew, hmn⟩, by simp, fun ho => ⟨ho, rfl⟩⟩
  | succ n ih =>
    have hi : i < N := by omega
    have hle := hold.size_le
    have hvalid : (old.pte i).flags.v = true := (hold.valid_iff i (by omega)).mpr hi
    rw [uvmcopyLoop, walk_find, if_neg (by simp only [TRAPFRAME] at hle; omega)]
    refine Outcome.ensures_bind (Outcome.ensures_ok.mpr ?_)
    dsimp only
    rw [hold.reaches hvalid, hvalid]
    simp only [Bool.not_true, Bool.false_eq_true, if_false]
    obtain ⟨hspace1, hmi⟩ := shareEntry_space hold hi hmo
    have hold1 := shareEntry_ptOk hold hi
    have hE1 : KOk R k (new.shares + ((old.setPte i (old.pte i).shareEntry).shares + M)) := by
      have h := hE
      rw [← add_assoc, add_comm new.shares, add_assoc] at h
      have h' := KOk.shareEntry (by omega) hvalid h
      rwa [← add_assoc, add_comm _ new.shares, add_assoc] at h'
    refine Outcome.ensures_bind ((uvmcopy_map_ensures hold hnew hi hE1 hmi hmn hppn).mono ?_)
    rintro ⟨ok, k1, new1⟩ ⟨hkeeps, hoom, hdone, hfailed⟩
    have hspace2 : (old.setPte i (old.pte i).shareEntry).space k1 = m.shareTo (i + 1) := by
      rw [← hspace1]
      exact space_congr (fun _ _ => rfl) fun w hw hv => hkeeps.right.entry hw hv
    cases ok with
    | true =>
      obtain ⟨hnew1, hE2, hspace3, hppn1⟩ := hdone rfl
      have hppn2 : ∀ w, w < i + 1 →
          (new1.pte w).ppn = ((old.setPte i (old.pte i).shareEntry).pte w).ppn := by
        intro w hw
        rw [show (new1.pte w).ppn = _ from hppn1 w hw]
        by_cases hwi : w = i
        · simp [PageTable.setPte, hwi, Pte.shareEntry]
        · simp [PageTable.setPte, hwi]
      refine (ih (by omega) hold1 hnew1 hE2 hspace2
        hspace3 hppn2).mono ?_
      intro r hr
      refine ⟨hr.old_ok, hr.exact, hkeeps.right.right.trans hr.keeps, hr.done, hr.undone, ?_⟩
      intro ho
      obtain ⟨ho1, h⟩ := hr.oom ho
      exact ⟨(hoom ho1).1, h⟩
    | false =>
      obtain ⟨hnew1, hE2⟩ := hfailed rfl
      refine Outcome.ensures_bind ((uvmunmap_top_ensures hnew1 (Nat.zero_le i) hE2).mono ?_)
      rintro ⟨k2, new2⟩ ⟨hpost, hoom2⟩
      refine ⟨hold1, hpost.exact, hkeeps.right.right.trans hpost.keeps.right, by simp,
        fun _ => ⟨⟨i + 1, ?_⟩, hpost.ok, ?_⟩, fun ho => ?_⟩
      · rw [← hspace2]
        exact space_congr (fun _ _ => rfl) fun w hw hv => hpost.keeps.entry hw hv
      · rw [hpost.space]
        funext w
        simp [Space.truncate, Space.empty]
      · rw [hoom2] at ho
        exact Bool.noConfusion (hoom ho).2

theorem uvmcopy_ensures {old new : PageTable} {sz : ℕ} (hold : PtOk old (pgroundup sz))
    (hnew : PtOk new 0) (hE : KOk R k (new.shares + (old.shares + M))) :
    (uvmcopy R sz k old new).Ensures (Expected R)
      (CopyPost R M k (old.space k) (pgroundup sz)) := by
  refine uvmcopyLoop_ensures _ (by omega) hold hnew hE shareTo_self.symm ?_ ?_
  · rw [← hnew.truncate_self]
    funext w
    simp [Space.truncate]
  · intro w hw
    omega

end
end Xv6.Vm
