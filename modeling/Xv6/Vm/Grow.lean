import Xv6.Vm.Maps

/-! # Growing, shrinking and copying user memory -/

namespace Xv6.Vm
set_option autoImplicit false
open Kmem RefPool
open Outcome (ensures_bind)

section
variable {R : Ram} {M : Multiset (Share Ppn)} {k : Kmem} {pt : PageTable} {n : ℕ}

theorem PtOk.truncate_self (hok : PtOk pt n) (k : Kmem) :
    (pt.space k).truncate n = pt.space k := by
  funext v
  simp only [Space.truncate, PageTable.space]
  by_cases hv : v < n
  · rw [if_pos hv]
  · rw [if_neg hv, if_neg]
    rintro ⟨hlt, hvalid⟩
    exact hv ((hok.valid_iff v hlt).mp hvalid)

theorem Post.refl (hok : PtOk pt n) (hE : KOk R k (pt.shares + M)) :
    Post R M k n (pt.space k) k pt :=
  ⟨hok, hE, Keeps.refl, rfl⟩

theorem Post.truncate_refl (hok : PtOk pt n) (hE : KOk R k (pt.shares + M)) :
    Post R M k n ((pt.space k).truncate n) k pt := by
  rw [hok.truncate_self]
  exact .refl hok hE

theorem Post.after {k1 k2 : Kmem} {m : Space} {pt2 : PageTable} (h : Post R M k1 n m k2 pt2)
    (hkeeps : Keeps M k k1) : Post R M k n m k2 pt2 :=
  ⟨h.ok, h.exact, hkeeps.trans h.keeps, h.space⟩

theorem pgroundup_mul (a : ℕ) : pgroundup (a * PGSIZE) = a := by
  simp only [pgroundup, PGSIZE]
  omega

theorem pgroundup_zero : pgroundup 0 = 0 := by
  simp [pgroundup, PGSIZE]

theorem pgroundup_mono {a b : ℕ} (h : a ≤ b) : pgroundup a ≤ pgroundup b := by
  simp only [pgroundup, PGSIZE]
  omega

/-! ## `uvmdealloc` -/

theorem uvmdealloc_ensures {oldsz newsz : ℕ} (hok : PtOk pt (pgroundup oldsz))
    (hE : KOk R k (pt.shares + M)) :
    (uvmdealloc R oldsz newsz k pt).Ensures (Expected R) fun r =>
      r.1 = min oldsz newsz ∧
      Post R M k (pgroundup r.1) ((pt.space k).truncate (pgroundup r.1)) r.2.1 r.2.2 ∧
      r.2.1.oom = k.oom := by
  unfold uvmdealloc
  split
  · next h => exact ⟨(min_eq_left h).symm, .truncate_refl hok hE, rfl⟩
  next h =>
  have hlt : newsz ≤ oldsz := by omega
  split
  · next hpages =>
    refine ensures_bind ((uvmunmap_top_ensures hok hpages.le hE).mono ?_)
    rintro ⟨k', pt'⟩ ⟨hpost, hoom⟩
    exact ⟨(min_eq_right hlt).symm, hpost, hoom⟩
  · next hpages =>
    have heq : pgroundup oldsz = pgroundup newsz := by
      have := pgroundup_mono hlt
      omega
    rw [heq] at hok
    exact ⟨(min_eq_right hlt).symm, .truncate_refl hok hE, rfl⟩

/-! ## `uvmalloc` -/

theorem mapPage_top (hok : PtOk pt TRAPFRAME) (hE : KOk R k (pt.shares + M)) (pa : Ppn)
    (perm : Flags) (k' : Kmem) :
    (mapPage TRAPFRAME pa perm k' pt).Ensures (Expected R) fun _ => False := by
  have hsize := hok.size_le_ram hE
  rw [mapPage_found (hok.reaches hok.top) (by simp [TRAPFRAME, MAXVPN])]
  simp only [hok.top, (hok.high TRAPFRAME le_rfl).2, Bool.not_false, Bool.and_self, if_true,
    Outcome.ensures_fail]
  intro hstop
  have hle : TRAPFRAME ≤ PHYSTOP := hsize.trans ((Nat.sub_le _ _).trans hstop)
  simp [TRAPFRAME, MAXVPN, PHYSTOP] at hle

theorem uvmalloc_undo {start a : ℕ} (hok : PtOk pt a) (hstart : start ≤ a)
    (hE : KOk R k (pt.shares + M)) :
    (uvmdealloc R (a * PGSIZE) (start * PGSIZE) k pt).Ensures (Expected R) fun r =>
      Post R M k start ((pt.space k).truncate start) r.2.1 r.2.2 ∧ r.2.1.oom = k.oom := by
  have hok' : PtOk pt (pgroundup (a * PGSIZE)) := by
    rw [pgroundup_mul]
    exact hok
  refine (uvmdealloc_ensures hok' hE).mono ?_
  rintro ⟨sz, k', pt'⟩ ⟨hsz, hpost, hoom⟩
  have hsz' : sz = start * PGSIZE := by
    rw [show sz = _ from hsz]
    exact min_eq_right (Nat.mul_le_mul_right _ hstart)
  subst hsz'
  simp only [pgroundup_mul] at hpost
  exact ⟨hpost, hoom⟩

/-- The outcome of the loop of `uvmalloc` at page `a`. -/
structure AllocPost (R : Ram) (M : Multiset (Share Ppn)) (k : Kmem) (m : Space)
    (start a n : ℕ) (perm : Flags) (r : Bool × Kmem × PageTable) : Prop where
  done : r.1 = true → Post R M k (a + n) (m.grow a n perm) r.2.1 r.2.2
  undone : r.1 = false → Post R M k start (m.truncate start) r.2.1 r.2.2
  oom : r.2.1.oom = false → k.oom = false ∧ r.1 = true

theorem uvmallocLoop_ensures {start : ℕ} {xperm : Xperm} (n : ℕ) {a : ℕ} (hok : PtOk pt a)
    (hstart : start ≤ a) (hE : KOk R k (pt.shares + M)) :
    (uvmallocLoop R start xperm n a k pt).Ensures (Expected R)
      (AllocPost R M k (pt.space k) start a n (userPerm xperm)) := by
  -- The first `a` pages are mapped; a round adds page `a` or undoes everything from `start` on.
  induction n generalizing a k pt with
  | zero =>
    refine ⟨fun _ => ?_, by simp, fun ho => ⟨ho, rfl⟩⟩
    rw [Space.grow_zero]
    exact .refl hok hE
  | succ n ih =>
    unfold uvmallocLoop
    rcases hk : kalloc k with ⟨_ | mem, k1⟩
    · obtain ⟨hE1, hdata, hoom1⟩ := kalloc_none hk hE
      refine ensures_bind ((uvmalloc_undo hok hstart hE1).mono ?_)
      rintro ⟨sz, k2, pt2⟩ ⟨hpost, hoom2⟩
      refine ⟨by simp, fun _ => ?_, fun ho => ?_⟩
      · have hspace : pt.space k1 = pt.space k :=
          space_congr (fun _ _ => rfl) fun w _ _ => by rw [hdata]
        rw [← hspace]
        exact hpost.after fun pg _ => by rw [hdata]
      · rw [hoom2, hoom1] at ho
        exact Bool.noConfusion ho
    obtain ⟨hx, hzero, -, hoom1⟩ := kalloc_some hk hE
    have hkeep1 : Keeps (pt.shares + M) k (k1.memset mem 0) := by
      refine (kalloc_keeps hk hE).trans (Keeps.of_unused mem hzero fun q hq => ?_)
      simp [memset, hq]
    have hspace : pt.space (k1.memset mem 0) = pt.space k :=
      space_congr (fun _ _ => rfl) fun w hw hvalid => hkeep1.entry hw hvalid
    have hE1 : KOk R (k1.memset mem 0) (.sole mem ::ₘ (pt.shares + M)) := hx (.sole mem) rfl
    have hle := hok.size_le
    by_cases ha : a = TRAPFRAME
    · subst ha
      exact ensures_bind ((mapPage_top hok hE mem _ _).mono fun _ h => h.elim)
    have ha : a < TRAPFRAME := by omega
    have hnone : pt.pte a = .zero := hok.not_valid le_rfl ha
    have hfree : (pt.pte a).flags.v = true → (pt.pte a).flags.cow = true := by
      rw [hnone]
      exact fun h => h
    refine ensures_bind ((mapPage_own_ensures _ rfl hok.wf ha hfree hE1).mono ?_)
    rintro ⟨ok, k2, pt2⟩ hmap
    have hkeep2 : Keeps M k k2 := by
      refine hkeep1.right.trans (hmap.keeps.mono ?_)
      exact (Multiset.le_add_left _ _).trans (Multiset.le_cons_self _ _)
    cases ok with
    | true =>
      have hok2 : PtOk pt2 (a + 1) :=
        hok.update hmap.wf (hmap.mapped rfl).1 ha rfl rfl (fun _ => rfl)
          (fun w hw _ hvalid => ppn_ne_of_unused hzero w hw hvalid) (by omega) fun w => by omega
      have hE2 : KOk R k2 (pt2.shares + M) := by
        have h := (hmap.mapped rfl).2
        rwa [hnone, Pte.share_zero, zero_add] at h
      have hspace2 : pt2.space k2 = (pt.space k).grow a 1 (userPerm xperm) := by
        have h := hmap.space rfl ha rfl
        rw [show (true, k2, pt2).2.2.space _ = pt2.space k2 from rfl] at h
        rw [h, hspace]
        funext w
        by_cases hw : w = a
        · subst hw
          simp [Space.grow, memset]
        · simp only [Function.update_of_ne hw, Space.grow]
          rw [if_neg (by omega)]
      refine (ih hok2 (by omega) hE2).mono ?_
      intro r hr
      refine ⟨fun h => ?_, fun h => ?_, fun ho => ?_⟩
      · have hd := (hr.done h).after hkeep2
        rwa [hspace2, Space.grow_succ, show a + 1 + n = a + (n + 1) by omega] at hd
      · have hu := (hr.undone h).after hkeep2
        rwa [hspace2, Space.truncate_grow _ hstart] at hu
      · obtain ⟨ho2, h⟩ := hr.oom ho
        refine ⟨?_, h⟩
        have := (hmap.oom ho2).1
        rwa [show (k1.memset mem 0).oom = k1.oom from rfl, hoom1] at this
    | false =>
      obtain ⟨hpte, hE2⟩ := hmap.failed rfl
      have hok2 : PtOk pt2 a := hok.congr hmap.wf hpte
      refine ensures_bind (((kfree_ensures hE2).mono ?_).weaken fun _ h => h.elim)
      rintro k3 ⟨hE3, hkeep3, hoom3⟩
      refine ensures_bind ((uvmalloc_undo hok2 hstart hE3).mono ?_)
      rintro ⟨sz, k4, pt4⟩ ⟨hpost, hoom4⟩
      refine ⟨by simp, fun _ => ?_, fun ho => ?_⟩
      · have hspace2 : pt2.space k3 = pt.space k := by
          rw [← hspace]
          refine space_congr (fun w _ => congrFun hpte w) fun w hw hvalid => ?_
          have h2 := Keeps.entry (hmap.keeps.mono (Multiset.le_cons_self _ _)) hw hvalid
          have hvalid2 : (pt2.pte w).flags.v = true := by
            rw [show pt2.pte = pt.pte from hpte]
            exact hvalid
          have h3 := hkeep3.entry hw hvalid2
          rw [show pt2.pte = pt.pte from hpte] at h3
          exact h3.trans h2
        rw [← hspace2]
        exact hpost.after (hkeep2.trans hkeep3.right)
      · rw [hoom4, hoom3] at ho
        exact Bool.noConfusion (hmap.oom ho).2

theorem uvmalloc_ensures {oldsz newsz : ℕ} {xperm : Xperm} (hok : PtOk pt (pgroundup oldsz))
    (hE : KOk R k (pt.shares + M)) :
    (uvmalloc R oldsz newsz xperm k pt).Ensures (Expected R) fun r =>
      ((newsz < oldsz ∧ r = (oldsz, k, pt)) ∨
      (oldsz ≤ newsz ∧ r.1 = newsz ∧ Post R M k (pgroundup newsz)
        ((pt.space k).grow (pgroundup oldsz) (pgroundup newsz - pgroundup oldsz)
          (userPerm xperm)) r.2.1 r.2.2) ∨
      (oldsz ≤ newsz ∧ r.1 = 0 ∧ r.2.1.oom = true ∧
        Post R M k (pgroundup oldsz) (pt.space k) r.2.1 r.2.2)) ∧
      (r.2.1.oom = false → k.oom = false) := by
  unfold uvmalloc
  split
  · next h => exact ⟨Or.inl ⟨h, rfl⟩, id⟩
  next h =>
  have hle : oldsz ≤ newsz := by omega
  refine ensures_bind ((uvmallocLoop_ensures _ hok le_rfl hE).mono ?_)
  rintro ⟨ok, k', pt'⟩ hpost
  refine ⟨Or.inr ?_, fun ho => (hpost.oom ho).1⟩
  cases ok with
  | true =>
    have hd := hpost.done rfl
    have hsum : pgroundup oldsz + (pgroundup newsz - pgroundup oldsz) = pgroundup newsz := by
      have := pgroundup_mono hle
      omega
    rw [hsum] at hd
    exact Or.inl ⟨hle, rfl, hd⟩
  | false =>
    have hu := hpost.undone rfl
    rw [hok.truncate_self] at hu
    refine Or.inr ⟨hle, rfl, ?_, hu⟩
    by_contra ho
    exact Bool.noConfusion (hpost.oom (by simpa using ho)).2

end
end Xv6.Vm
