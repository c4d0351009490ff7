import Xv6.Vm.Exact
import Xv6.Vm.Shape

/-! # `growproc`

`growproc` with its return value: what it does to the size, to the user mappings and to the free
pages, and for which arguments this is what its caller expects.
-/

namespace Xv6.Vm
set_option autoImplicit false
open Kmem RefPool
open Outcome (bind_eq_ok)

/-! ## Entries that `uvmalloc` leaves alone -/

section
variable {R : Ram} {k k' : Kmem} {pt pt' : PageTable} {v w : ℕ}

theorem walk_pte {alloc b : Bool} (hwf : pt.Wf) (h : walk alloc v k pt = .ok (b, k', pt')) :
    pt'.Wf ∧ pt'.pte = pt.pte ∧ (b = true → pt'.reaches v = true) := by
  unfold walk at h
  split at h
  · cases h
  next hlt =>
  have hidx : v / NPTE / NPTE < NPTE := by
    simp only [MAXVPN, NPTE] at hlt ⊢
    omega
  -- The level-1 table.
  have h1 : ∀ {b1 k1 pt1}, walk1 alloc v k pt = (b1, k1, pt1) → pt1.Wf ∧ pt1.pte = pt.pte ∧
      (b1 = true → pt1.level1 (v / NPTE / NPTE) ≠ none) := by
    intro b1 k1 pt1 hw
    unfold walk1 at hw
    split at hw
    · next hsome =>
      cases hw
      exact ⟨hwf, rfl, by simp [hsome]⟩
    next hnone =>
    split at hw
    · split at hw
      · cases hw
        exact ⟨hwf, rfl, by simp⟩
      · cases hw
        exact ⟨addLevel1_wf hwf hidx hnone _, rfl, by simp [PageTable.addLevel1]⟩
    · cases hw
      exact ⟨hwf, rfl, by simp⟩
  split at h
  · next hw =>
    cases h
    exact ⟨(h1 hw).1, (h1 hw).2.1, by simp⟩
  next k1 pt1 hw =>
  obtain ⟨hwf1, hpte1, hlevel1⟩ := h1 hw
  have hlevel1 := hlevel1 rfl
  replace h : walk0 alloc v k1 pt1 = (b, k', pt') := by
    injection h
  unfold walk0 at h
  split at h
  · next hsome =>
    cases h
    refine ⟨hwf1, hpte1, fun _ => ?_⟩
    simp [PageTable.reaches, hsome, Option.isSome_iff_ne_none.mpr hlevel1]
  next hnone =>
  split at h
  · split at h
    · cases h
      exact ⟨hwf1, hpte1, by simp⟩
    · cases h
      refine ⟨addLevel0_wf hwf1 hlevel1 hnone _, (addLevel0_pte hwf1 hnone _).trans hpte1,
        fun _ => ?_⟩
      simp [PageTable.reaches, PageTable.addLevel0, Option.isSome_iff_ne_none.mpr hlevel1]
  · cases h
    exact ⟨hwf1, hpte1, by simp⟩

theorem mapPage_pte {pa : Ppn} {perm : Flags} {ok : Bool} (hwf : pt.Wf)
    (h : mapPage v pa perm k pt = .ok (ok, k', pt')) :
    pt'.Wf ∧ ∀ w, w ≠ v → pt'.pte w = pt.pte w := by
  obtain ⟨⟨found, k1, pt1⟩, hwalk, h⟩ := bind_eq_ok h
  obtain ⟨hwf1, hpte, hreach⟩ := walk_pte hwf hwalk
  dsimp only at h
  split at h
  · cases h
    exact ⟨hwf1, fun w _ => congrFun hpte w⟩
  next hfound =>
  split at h
  · cases h
  · cases h
    refine ⟨setPte_wf hwf1 (hreach (by simpa using hfound)) (by simp), fun w hw => ?_⟩
    rw [← hpte]
    exact Function.update_of_ne hw _ _

theorem uvmunmap_pte {doFree : Bool} (n : ℕ) (h : uvmunmap R doFree n v k pt = .ok (k', pt'))
    (hw : w < v) : pt'.pte w = pt.pte w := by
  induction n generalizing v k pt with
  | zero =>
    cases h
    rfl
  | succ n ih =>
    obtain ⟨⟨found, k1, pt1⟩, hwalk, h⟩ := bind_eq_ok h
    rw [walk_find] at hwalk
    split at hwalk
    · cases hwalk
    cases hwalk
    dsimp only at h
    split at h
    · cases h
    split at h
    · cases h
    split at h
    · cases h
    have hrest : ∀ k2, uvmunmap R doFree n (v + 1) k2 (pt.setPte v .zero) = .ok (k', pt') →
        pt'.pte w = pt.pte w := by
      intro k2 h
      rw [ih h (by omega)]
      exact Function.update_of_ne (by omega) _ _
    split at h
    · obtain ⟨k2, -, h⟩ := bind_eq_ok h
      exact hrest k2 h
    · exact hrest k h

theorem uvmdealloc_pte {oldsz newsz sz : ℕ} (h : uvmdealloc R oldsz newsz k pt = .ok (sz, k', pt'))
    (hw : w < pgroundup newsz) : pt'.pte w = pt.pte w := by
  unfold uvmdealloc at h
  split at h
  · cases h
    rfl
  split at h
  · obtain ⟨⟨k1, pt1⟩, hun, h⟩ := bind_eq_ok h
    cases h
    exact uvmunmap_pte _ hun hw
  · cases h
    rfl

theorem uvmallocLoop_pte {start a : ℕ} {xperm : Xperm} {ok : Bool} (n : ℕ) (hwf : pt.Wf)
    (hstart : start ≤ a) (h : uvmallocLoop R start xperm n a k pt = .ok (ok, k', pt'))
    (hw : w < start) : pt'.pte w = pt.pte w := by
  have hundo : ∀ {k1 k2 : Kmem} {pt1 pt2 : PageTable} {sz : ℕ},
      uvmdealloc R (a * PGSIZE) (start * PGSIZE) k1 pt1 = .ok (sz, k2, pt2) →
      pt2.pte w = pt1.pte w := fun h => uvmdealloc_pte h (by rwa [pgroundup_mul])
  induction n generalizing a k pt with
  | zero =>
    cases h
    rfl
  | succ n ih =>
    unfold uvmallocLoop at h
    split at h
    · obtain ⟨⟨sz, k2, pt2⟩, hun, h⟩ := bind_eq_ok h
      cases h
      exact hundo hun
    · obtain ⟨⟨mapped, k2, pt2⟩, hmap, h⟩ := bind_eq_ok h
      obtain ⟨hwf2, hpte2⟩ := mapPage_pte hwf hmap
      rw [← hpte2 w (by omega)]
      dsimp only at h
      split at h
      · exact ih hwf2 (by omega) h fun h => uvmdealloc_pte h (by rwa [pgroundup_mul])
      · obtain ⟨k3, -, h⟩ := bind_eq_ok h
        obtain ⟨⟨sz, k4, pt4⟩, hun, h⟩ := bind_eq_ok h
        cases h
        exact hundo hun

theorem uvmalloc_pte {oldsz newsz sz : ℕ} {xperm : Xperm} (hwf : pt.Wf)
    (h : uvmalloc R oldsz newsz xperm k pt = .ok (sz, k', pt')) (hw : w < pgroundup oldsz) :
    pt'.pte w = pt.pte w := by
  unfold uvmalloc at h
  split at h
  · cases h
    rfl
  · obtain ⟨⟨ok, k1, pt1⟩, hloop, h⟩ := bind_eq_ok h
    cases h
    exact uvmallocLoop_pte _ hwf le_rfl hloop hw

theorem isTable_of_taken {M : Multiset (Share Ppn)} (hE : KOk R k (pt.shares + M))
    (hE' : KOk R k' (pt'.shares + M)) (hwf' : pt'.Wf)
    (hpte : ∀ v, v < TRAPFRAME → pt'.pte v = pt.pte v) {pg : Ppn} (hfree : pg ∈ k.freelist)
    (htaken : pg ∉ k'.freelist) : pt'.IsTable pg := by
  have hvalid := hE.free_valid pg hfree
  have hzero := (hE.uses_of_mem_free hfree).1
  have hentries : pt'.entries = pt.entries := by
    unfold PageTable.entries
    exact Finset.sum_congr rfl fun v hv => by rw [hpte v (Finset.mem_range.mp hv)]
  have hcount := hE'.free_count pg hvalid
  rw [List.count_eq_zero.mpr htaken] at hcount
  have hused : uses (pt'.shares + M) pg ≠ 0 := by
    intro h
    rw [if_pos h] at hcount
    cases hcount
  rw [PageTable.shares_eq, uses_add, uses_add] at hused hzero
  rw [hentries] at hused
  have htables : 0 < uses pt'.tables pg := by omega
  obtain ⟨x, hx, hpage⟩ := Multiset.mem_map.mp (Multiset.count_pos.mp htables)
  obtain ⟨q, hq, rfl⟩ := (mem_tables hwf').mp hx
  rwa [← hpage]

end

/-! ## The return value of `growproc` -/

section
variable {I : Type} [DecidableEq I]

theorem State.setSlot_self (s : State I) (i : I) (x : Slot) (k : Kmem) :
    (s.setSlot i x k).slot i = x := Function.update_self _ _ _

/-- `growproc` with its return value, where `true` stands for 0. -/
def growprocResult (R : Ram) (i : I) (p : Proc) (n : ℤ) (s : State I) :
    Outcome Failure (Bool × State I) :=
  if n > 0 then do
    let (sz, k, pt) ← uvmalloc R p.sz (addSize p.sz n) ⟨true, false⟩ s.kmem p.pt
    if sz = 0 then pure (false, s.setSlot i (.live { p with pt := pt }) k)
    else pure (true, s.setSlot i (.live { p with pt := pt, sz := sz }) k)
  else if n < 0 then do
    let (sz, k, pt) ← uvmdealloc R p.sz (addSize p.sz n) s.kmem p.pt
    pure (true, s.setSlot i (.live { p with pt := pt, sz := sz }) k)
  else pure (true, s)

theorem growproc_eq (R : Ram) (i : I) (p : Proc) (n : ℤ) (s : State I) :
    growproc R i p n s = (do
      let (_, s') ← growprocResult R i p n s
      pure s') := by
  unfold growproc growprocResult
  split
  · cases uvmalloc R p.sz (addSize p.sz n) ⟨true, false⟩ s.kmem p.pt with
    | blocked => rfl
    | fail e => rfl
    | ok r =>
      obtain ⟨sz, k, pt⟩ := r
      show _ = ((if sz = 0 then _ else _ : Outcome Failure (Bool × State I)) >>= _)
      by_cases hsz : sz = 0
      · rw [if_pos hsz]
        show Outcome.ok _ = Outcome.ok _
        rw [if_pos hsz]
      · rw [if_neg hsz]
        show Outcome.ok _ = Outcome.ok _
        rw [if_neg hsz]
  · split
    · cases uvmdealloc R p.sz (addSize p.sz n) s.kmem p.pt <;> rfl
    · rfl

/-- What a `growproc` that returns 0 has to leave. -/
structure Grown (n : ℤ) (p : Proc) (k : Kmem) (p' : Proc) (k' : Kmem) : Prop where
  size : (p'.sz : ℤ) = p.sz + n
  maps : ∀ v, v < TRAPFRAME → (p'.pt.Maps v ↔ v < pgroundup p'.sz)
  kept : ∀ v, v < pgroundup p.sz → v < pgroundup p'.sz → p'.pt.space k' v = p.pt.space k v
  zeroed : ∀ v, pgroundup p.sz ≤ v → v < pgroundup p'.sz →
    ∃ f, p'.pt.space k' v = some ⟨ByteBlock.fill PGSIZE 0, f⟩

/-- What a `growproc` that returns -1 has to leave: only table pages may be gone from the free
list. -/
structure NotGrown (p : Proc) (k : Kmem) (p' : Proc) (k' : Kmem) : Prop where
  size : p'.sz = p.sz
  pte : ∀ v, v < TRAPFRAME → p'.pt.pte v = p.pt.pte v
  space : p'.pt.space k' = p.pt.space k
  taken : ∀ pg ∈ k.freelist, pg ∉ k'.freelist → p'.pt.IsTable pg

/-- `growproc(n)` is exact if it returns 0, and does nothing if it returns -1. -/
def GrowprocExact (R : Ram) (i : I) (p : Proc) (n : ℤ) (s : State I) : Prop :=
  ∀ ok s', growprocResult R i p n s = .ok (ok, s') → ∃ p', s'.slot i = .live p' ∧
    (ok = true → Grown n p s.kmem p' s'.kmem) ∧ (ok = false → NotGrown p s.kmem p' s'.kmem)

end

theorem le_pgroundup (sz : ℕ) : sz ≤ pgroundup sz * PGSIZE := by
  simp only [pgroundup, PGSIZE]
  omega

theorem addSize_eq {sz : ℕ} {n : ℤ} (h : 0 ≤ sz + n) (hlt : (sz + n : ℤ) < 2 ^ 64) :
    (addSize sz n : ℤ) = sz + n := by
  rw [addSize, Int.emod_eq_of_lt h hlt]
  omega

section
variable {I : Type} [Fintype I] [DecidableEq I] {R : Ram} {s : State I} {i : I} {p : Proc} {n : ℤ}

section
variable (hinv : Inv R s) (hp : s.slot i = .live p)
include hinv hp

omit [DecidableEq I] in
theorem Inv.sz_lt : p.sz < 2 ^ 38 := by
  have hle := (hinv.live_ok hp).size_le
  have hsz := le_pgroundup p.sz
  simp only [TRAPFRAME, MAXVPN, PGSIZE] at hle hsz
  omega

theorem growproc_up (hpos : 0 < n) (hn : n < 2 ^ 31) : GrowprocExact R i p n s := by
  intro ok s' h
  have hok := hinv.live_ok hp
  have hE := hinv.exact_live hp
  have hsz := hinv.sz_lt hp
  have hadd : (addSize p.sz n : ℤ) = p.sz + n := addSize_eq (by omega) (by omega)
  rw [growprocResult, if_pos hpos] at h
  obtain ⟨⟨sz, k, pt⟩, halloc, h⟩ := bind_eq_ok h
  dsimp only at h
  rcases ((uvmalloc_ensures hok hE).of_ok halloc).1 with
    ⟨hlt, -⟩ | ⟨hle, hnew, hpost⟩ | ⟨-, hnew, -, hpost⟩
  · omega
  · obtain rfl : sz = addSize p.sz n := hnew
    rw [if_neg (by omega)] at h
    cases h
    refine ⟨_, s.setSlot_self i _ _, fun _ => ⟨hadd, fun v hv => hpost.ok.maps_iff hv, ?_, ?_⟩,
      by simp⟩
    · intro v hv _
      show pt.space k v = _
      rw [hpost.space, Space.grow, if_neg (by omega)]
    · intro v hv hlt
      have hlt : v < pgroundup (addSize p.sz n) := hlt
      refine ⟨{ userPerm ⟨true, false⟩ with v := true }, ?_⟩
      show pt.space k v = _
      rw [hpost.space, Space.grow, if_pos (by omega)]
  · obtain rfl : sz = 0 := hnew
    rw [if_pos rfl] at h
    cases h
    have hpte : ∀ v, v < TRAPFRAME → pt.pte v = p.pt.pte v := by
      intro v hv
      by_cases hlow : v < pgroundup p.sz
      · exact uvmalloc_pte hok.wf halloc hlow
      · rw [hok.not_valid (by omega) hv, hpost.ok.not_valid (by omega) hv]
    exact ⟨_, s.setSlot_self i _ _, by simp, fun _ => ⟨rfl, hpte, hpost.space,
      fun pg hfree htaken => isTable_of_taken hE hpost.exact hpost.ok.wf hpte hfree htaken⟩⟩

theorem growproc_down (hneg : n < 0) (hn : 0 ≤ p.sz + n) : GrowprocExact R i p n s := by
  intro ok s' h
  have hok := hinv.live_ok hp
  have hsz := hinv.sz_lt hp
  have hadd : (addSize p.sz n : ℤ) = p.sz + n := addSize_eq hn (by omega)
  rw [growprocResult, if_neg (by omega), if_pos hneg] at h
  obtain ⟨⟨sz, k, pt⟩, hdealloc, h⟩ := bind_eq_ok h
  cases h
  obtain ⟨hnew, hpost, -⟩ := (uvmdealloc_ensures hok (hinv.exact_live hp)).of_ok hdealloc
  obtain rfl : sz = min p.sz (addSize p.sz n) := hnew
  have hle : pgroundup (min p.sz (addSize p.sz n)) ≤ pgroundup p.sz :=
    pgroundup_mono (min_le_left _ _)
  refine ⟨_, s.setSlot_self i _ _, fun _ => ⟨?_, fun v hv => hpost.ok.maps_iff hv, ?_, ?_⟩,
    by simp⟩
  · show ((min p.sz (addSize p.sz n) : ℕ) : ℤ) = _
    omega
  · intro v _ hv
    show pt.space k v = _
    rw [hpost.space, Space.truncate, if_pos hv]
  · intro v hv hlt
    have hlt : v < pgroundup (min p.sz (addSize p.sz n)) := hlt
    omega

theorem growproc_zero : GrowprocExact R i p 0 s := by
  intro ok s' h
  cases h
  have hok := hinv.live_ok hp
  refine ⟨p, hp, fun _ => ⟨by simp, fun v hv => hok.maps_iff hv, fun _ _ _ => rfl, ?_⟩, by simp⟩
  intro v hv hlt
  omega

end

/-- `growproc(n)` is exact or does nothing exactly if the new size is not negative. -/
theorem growprocExact_iff (hs : (sys R I).Reachable s) (hp : s.slot i = .live p)
    (hmin : -2 ^ 31 ≤ n) (hmax : n < 2 ^ 31) : GrowprocExact R i p n s ↔ 0 ≤ p.sz + n := by
  have hinv := reachable_inv hs
  constructor
  · intro h
    by_contra hneg
    -- The sum wraps around to a large size, and `uvmdealloc` returns the old one.
    have hadd : (addSize p.sz n : ℤ) = p.sz + n + 2 ^ 64 := by
      rw [addSize, ← Int.add_emod_right, Int.emod_eq_of_lt (by omega) (by omega)]
      omega
    have hres : growprocResult R i p n s =
        .ok (true, s.setSlot i (.live { p with pt := p.pt, sz := p.sz }) s.kmem) := by
      rw [growprocResult, if_neg (by omega), if_pos (by omega), uvmdealloc, if_pos (by omega)]
      rfl
    obtain ⟨p', hp', hgrown, -⟩ := h _ _ hres
    rw [State.setSlot_self] at hp'
    cases hp'
    have := (hgrown rfl).size
    omega
  · intro hn
    rcases Int.lt_trichotomy n 0 with hneg | rfl | hpos
    · exact growproc_down hinv hp hneg hn
    · exact growproc_zero hinv hp
    · exact growproc_up hinv hp hpos hmax

end

theorem first_process : ∃ (s : State (Fin 2)) (p : Proc), (sys smallRam (Fin 2)).Reachable s ∧
    s.slot 0 = .live p ∧ p.sz = 4096 := by
  have hrun : (runFrom smallRam (0 : Fin 2) [] []).map
      (fun s => s.check 0 fun p _ => decide (p.sz = 4096)) = some true := by decide +kernel
  obtain ⟨s, p, hreach, hp, htest⟩ := live_of_runFrom hrun
  exact ⟨s, p, hreach, hp, of_decide_eq_true htest⟩

theorem growprocExact_iff_first : ∃ (s : State (Fin 2)) (p : Proc),
    (sys smallRam (Fin 2)).Reachable s ∧ s.slot 0 = .live p ∧
    GrowprocExact smallRam 0 p 5000 s := by
  obtain ⟨s, p, hreach, hp, hsz⟩ := first_process
  exact ⟨s, p, hreach, hp, (growprocExact_iff hreach hp (by decide) (by decide)).mpr (by omega)⟩

/-- `growproc(-5000)` returns 0 to a process of size 4096 and leaves its size as it is. -/
theorem growproc_below_zero : ¬ ∀ (s : State (Fin 2)) (i : Fin 2) (p : Proc),
    (sys smallRam (Fin 2)).Reachable s → s.slot i = .live p →
      ∀ n, -2 ^ 31 ≤ n → n < 2 ^ 31 → GrowprocExact smallRam i p n s := by
  intro hall
  obtain ⟨s, p, hreach, hp, hsz⟩ := first_process
  have hres : growprocResult smallRam 0 p (-5000) s =
      .ok (true, s.setSlot 0 (.live { p with pt := p.pt, sz := p.sz }) s.kmem) := by
    rw [growprocResult, if_neg (by decide), if_pos (by decide), uvmdealloc, if_pos]
    · rfl
    · rw [hsz]
      decide
  obtain ⟨p', hp', hgrown, -⟩ := hall s 0 p hreach hp (-5000) (by decide) (by decide) _ _ hres
  rw [State.setSlot_self] at hp'
  cases hp'
  have := (hgrown rfl).size
  omega

end Xv6.Vm
