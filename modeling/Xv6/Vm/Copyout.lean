import Xv6.Vm.Fault

/-! # `copyout` at bad addresses

Page by page, what `copyout` returns, and for which destinations it ends without a fault.
-/

namespace Xv6.Vm
set_option autoImplicit false
open Kmem RefPool PageRange

/-- The number of free pages that copying the marked pages from `v` up to `w` uses up: a page with
only one user is freed after it has been copied. -/
def taken (k : Kmem) (pt : PageTable) (v w : ℕ) : ℕ :=
  (List.range' v (w - v)).countP fun u =>
    (pt.pte u).flags.cow && decide (k.refCount (pt.pte u).ppn ≠ 1)

/-- There is a free page to copy page `w`, if it is marked, after the pages from `v` on. -/
def Supplied (k : Kmem) (pt : PageTable) (v w : ℕ) : Prop :=
  (pt.pte w).flags.cow = true → taken k pt v w < k.freelist.length

/-- What `copyout` needs at page `w`: it is above `MAXVA`, or its leaf table exists and, if it is
marked copy-on-write, the user may access it and there is a page for the copy. -/
def CleanAt (k : Kmem) (pt : PageTable) (v w : ℕ) : Prop :=
  w < MAXVPN → pt.reaches w = true ∧
    ((pt.pte w).flags.cow = true → (pt.pte w).flags.u = true) ∧ Supplied k pt v w

/-- `copyout` stops at the first page that the user may not access; up to it, every page is as
needed. -/
def CopyoutSafe (k : Kmem) (pt : PageTable) (dstva len : ℕ) : Prop :=
  ∀ w, Touches PGSIZE dstva len w →
    (∀ v, Touches PGSIZE dstva len v → v < w → pt.User v) → CleanAt k pt (dstva / PGSIZE) w

def Writable (k : Kmem) (pt : PageTable) (dstva len : ℕ) : Prop :=
  ∀ v, Touches PGSIZE dstva len v → pt.User v ∧ Supplied k pt (dstva / PGSIZE) v

/-! ## One page -/

section
variable {R : Ram} {M : Multiset (Share Ppn)} {k k' : Kmem} {pt pt' : PageTable} {v w n off : ℕ}
  {src : List UInt8}

/-- Page `v` has been written: the other entries and the counts of their pages are as before. -/
structure PageCopied (v : ℕ) (k : Kmem) (pt : PageTable) (k' : Kmem) (pt' : PageTable) : Prop where
  pte : ∀ w, w ≠ v → pt'.pte w = pt.pte w
  reaches : ∀ w, pt'.reaches w = pt.reaches w
  refCount : ∀ w, w ≠ v → (pt.pte w).flags.cow = true →
    k'.refCount (pt.pte w).ppn = k.refCount (pt.pte w).ppn
  length : k'.freelist.length + taken k pt v (v + 1) = k.freelist.length

theorem taken_one : taken k pt v (v + 1) =
    if (pt.pte v).flags.cow = true ∧ k.refCount (pt.pte v).ppn ≠ 1 then 1 else 0 := by
  rw [taken, Nat.add_sub_cancel_left, List.range'_one, List.countP_singleton]
  simp

theorem taken_next (h : v < w) :
    taken k pt v w = taken k pt v (v + 1) + taken k pt (v + 1) w := by
  rw [taken, taken, taken, ← List.countP_append]
  congr 1
  rw [show w - v = (v + 1 - v) + (w - (v + 1)) by omega, ← List.range'_append_1]
  rw [show v + (v + 1 - v) = v + 1 by omega]

section
variable (h : PageCopied v k pt k' pt')
include h

theorem PageCopied.taken : taken k' pt' (v + 1) w = taken k pt (v + 1) w := by
  apply List.countP_congr
  intro u hu
  rw [List.mem_range'_1] at hu
  rw [h.pte u (by omega)]
  cases hcow : (pt.pte u).flags.cow with
  | false => simp
  | true => rw [h.refCount u (by omega) hcow]

theorem PageCopied.supplied (hw : v < w) : Supplied k' pt' (v + 1) w ↔ Supplied k pt v w := by
  have hlen := h.length
  rw [Supplied, Supplied, h.pte w (by omega), h.taken, taken_next hw]
  constructor
  · intro hs hcow
    have := hs hcow
    omega
  · intro hs hcow
    have := hs hcow
    omega

theorem PageCopied.user (hw : w ≠ v) : pt'.User w ↔ pt.User w := by
  rw [PageTable.User, PageTable.User, h.pte w hw, h.reaches w]

theorem PageCopied.cleanAt (hw : v < w) : CleanAt k' pt' (v + 1) w ↔ CleanAt k pt v w := by
  rw [CleanAt, CleanAt, h.reaches w, h.supplied hw, h.pte w (by omega)]

end

def writeOut (v off : ℕ) (src : List UInt8) (k : Kmem) (pt : PageTable) :
    Outcome Failure (Bool × Kmem × PageTable) :=
  match walkaddr pt v with
  | none => pure (false, k, pt)
  | some pa0 => pure (true, k.write pa0 off src, pt)

theorem writeOut_user (hu : pt.User v) :
    writeOut v off src k pt = .ok (true, k.write (pt.pte v).ppn off src, pt) := by
  rw [writeOut, walkaddr_of_user hu]
  rfl

theorem copyoutPage_reached (hlt : v < MAXVPN) (hr : pt.reaches v = true) :
    copyoutPage R v off src k pt =
      if (pt.pte v).flags.cow then
        match walkaddr pt v with
        | none => .fail .fault
        | some pa0 => do
          let (ok, k, pt) ← cowCopy R v pa0 k pt
          if !ok then pure (false, k, pt) else writeOut v off src k pt
      else writeOut v off src k pt := by
  rw [copyoutPage, if_neg (by omega), walk_find, if_neg (by omega)]
  show (if !pt.reaches v then _ else if (pt.pte v).flags.cow then _ else _) = _
  rw [hr]
  cases (pt.pte v).flags.cow with
  | false => rfl
  | true => cases walkaddr pt v <;> rfl

theorem copyoutPage_user (off : ℕ) (src : List UInt8) (hok : PtOk pt n)
    (hE : KOk R k (pt.shares + M)) (hu : pt.User v) (hs : Supplied k pt v v) :
    ∃ k' pt', copyoutPage R v off src k pt = .ok (true, k', pt') ∧ PageCopied v k pt k' pt' := by
  cases hcow : (pt.pte v).flags.cow with
  | false =>
    refine ⟨k.write (pt.pte v).ppn off src, pt, ?_, fun _ _ => rfl, fun _ => rfl, fun _ _ _ => rfl,
      ?_⟩
    · rw [copyoutPage_reached hu.1 hu.2.1, if_neg (by simp [hcow]), writeOut_user hu]
    · simp [taken_one, hcow, Kmem.write]
  | true =>
    have hfree : k.freelist ≠ [] := by
      have := hs hcow
      rintro hnil
      simp [hnil] at this
    obtain ⟨pg, k1, pt1, hcopy, hrep⟩ := cowCopy_replaces hok hcow hE hfree
    have hpt := hrep.pt_eq
    subst hpt
    have hself : (pt.setPte v (cowEntry pg)).pte v = cowEntry pg := by simp [PageTable.setPte]
    have hu1 : (pt.setPte v (cowEntry pg)).User v :=
      ⟨hu.1, hu.2.1, by rw [hself]; rfl, by rw [hself]; rfl,
        by rw [hself]; exact (hE.free_valid pg hrep.free).ne_zero⟩
    have hpte : ∀ w, w ≠ v → (pt.setPte v (cowEntry pg)).pte w = pt.pte w := by
      intro w hw
      simp [PageTable.setPte, hw]
    refine ⟨k1.write ((pt.setPte v (cowEntry pg)).pte v).ppn off src, _, ?_, hpte,
      fun _ => rfl, ?_, ?_⟩
    · rw [copyoutPage_reached hu.1 hu.2.1, if_pos hcow, walkaddr_of_user hu]
      dsimp only
      rw [hcopy]
      exact writeOut_user hu1
    · intro w hw hwcow
      obtain ⟨hwlt, hwvalid, -⟩ := hok.lt_of_cow hwcow
      obtain ⟨hlt, hvalid, -⟩ := hok.lt_of_cow hcow
      have hold := hok.ppn_ne hlt hvalid w hwlt hw hwvalid
      have hnew := ppn_ne_of_unused (hE.uses_of_mem_free hrep.free).1 w hwlt hwvalid
      simp [Kmem.write, hrep.refCount, hold, hnew]
    · have hlen := hrep.length
      rw [taken_one]
      simp only [Kmem.write, hcow, true_and]
      split at hlen <;> simp_all

theorem copyoutPage_refused (hu : ¬ pt.User v)
    (hclean : v < MAXVPN → pt.reaches v = true ∧ (pt.pte v).flags.cow = false) :
    copyoutPage R v off src k pt = .ok (false, k, pt) := by
  by_cases hlt : v < MAXVPN
  · rw [copyoutPage_reached hlt (hclean hlt).1, if_neg (by simp [(hclean hlt).2]), writeOut,
      walkaddr_of_not_user hu]
    rfl
  · rw [copyoutPage, if_pos (by omega)]
    rfl

theorem copyoutPage_fault (hok : PtOk pt n) (hE : KOk R k (pt.shares + M))
    (hclean : ¬ CleanAt k pt v v) :
    copyoutPage R v off src k pt = .fail .fault := by
  obtain ⟨hlt, hnot⟩ := Classical.not_imp.mp hclean
  by_cases hr : pt.reaches v = true
  · have hcow : (pt.pte v).flags.cow = true := by
      by_contra hcow
      exact hnot ⟨hr, fun h => absurd h hcow, fun h => absurd h hcow⟩
    rw [copyoutPage_reached hlt hr, if_pos hcow]
    by_cases hu : (pt.pte v).flags.u = true
    · have hfree : k.freelist = [] := by
        by_contra hfree
        refine hnot ⟨hr, fun _ => hu, fun _ => ?_⟩
        simpa [taken] using List.length_pos_iff.mpr hfree
      obtain ⟨hlt', hvalid, -⟩ := hok.lt_of_cow hcow
      rw [walkaddr_of_user ⟨hlt, hr, hvalid, hu, (allocatable_of_valid hE hlt' hvalid).ne_zero⟩]
      dsimp only
      rw [cowCopy_empty hfree]
      rfl
    · rw [walkaddr_of_not_user fun h => hu h.2.2.2.1]
  · rw [copyoutPage, if_neg (by omega), walk_find, if_neg (by omega)]
    show (if !pt.reaches v then _ else _) = _
    rw [Bool.eq_false_iff.mpr hr]
    rfl

/-! ## The loop -/

section Next
variable {dstva len : ℕ} (h : PageCopied (dstva / PGSIZE) k pt k' pt') (hlen : 0 < len)
include h hlen

theorem PageCopied.copyoutSafe (hu : pt.User (dstva / PGSIZE))
    (hclean : CleanAt k pt (dstva / PGSIZE) (dstva / PGSIZE)) :
    CopyoutSafe k pt dstva len ↔ CopyoutSafe k' pt' ((dstva / PGSIZE + 1) * PGSIZE)
      (len - min (PGSIZE - dstva % PGSIZE) len) := by
  simp only [CopyoutSafe, Nat.mul_div_cancel _ PGSIZE_pos, touches_next PGSIZE_pos hlen]
  constructor
  · intro hsafe w hw hbefore
    have hlt := hw.lt_of_rest PGSIZE_pos
    rw [h.cleanAt hlt]
    refine hsafe w (Or.inr hw) fun v hv hvw => ?_
    rcases hv with rfl | hv
    · exact hu
    · have := hv.lt_of_rest PGSIZE_pos
      exact (h.user (by omega)).mp (hbefore v hv hvw)
  · rintro hsafe w (rfl | hw) hbefore
    · exact hclean
    · have hlt := hw.lt_of_rest PGSIZE_pos
      rw [← h.cleanAt hlt]
      refine hsafe w hw fun v hv hvw => ?_
      have := hv.lt_of_rest PGSIZE_pos
      exact (h.user (by omega)).mpr (hbefore v (Or.inr hv) hvw)

theorem PageCopied.writable (hu : pt.User (dstva / PGSIZE))
    (hs : Supplied k pt (dstva / PGSIZE) (dstva / PGSIZE)) :
    Writable k pt dstva len ↔ Writable k' pt' ((dstva / PGSIZE + 1) * PGSIZE)
      (len - min (PGSIZE - dstva % PGSIZE) len) := by
  simp only [Writable, Nat.mul_div_cancel _ PGSIZE_pos, touches_next PGSIZE_pos hlen]
  constructor
  · intro hall w hw
    have hlt := hw.lt_of_rest PGSIZE_pos
    rw [h.user (by omega), h.supplied hlt]
    exact hall w (Or.inr hw)
  · rintro hall w (rfl | hw)
    · exact ⟨hu, hs⟩
    · have hlt := hw.lt_of_rest PGSIZE_pos
      rw [← h.user (by omega), ← h.supplied hlt]
      exact hall w hw

end Next

/-- What `copyout` has to return: 0 if every page can be written to, and -1 otherwise, with the
entries of all other pages as they were. -/
def CopyoutPost (k : Kmem) (pt : PageTable) (dstva len : ℕ) (r : Bool × Kmem × PageTable) : Prop :=
  (r.1 = true ↔ Writable k pt dstva len) ∧
    ∀ v, (pt.pte v).flags.u = false → r.2.2.pte v = pt.pte v

variable {dstva : ℕ}

theorem CopyoutPost.nil : CopyoutPost k pt dstva 0 (true, k, pt) :=
  ⟨⟨fun _ _ h => absurd h not_touches_zero, fun _ => rfl⟩, fun _ _ => rfl⟩

theorem copyoutSafe_nil : CopyoutSafe k pt dstva 0 :=
  fun _ h => absurd h not_touches_zero

theorem copyoutLoop_spec (fuel : ℕ) (hfuel : src.length ≤ fuel) (hok : PtOk pt n)
    (hE : KOk R k (pt.shares + M)) :
    (CopyoutSafe k pt dstva src.length → ∃ r, copyoutLoop R fuel dstva src k pt = .ok r ∧
      CopyoutPost k pt dstva src.length r) ∧
    (¬ CopyoutSafe k pt dstva src.length → copyoutLoop R fuel dstva src k pt = .fail .fault) := by
  induction fuel generalizing dstva src k pt with
  | zero =>
    obtain rfl : src = [] := List.eq_nil_of_length_eq_zero (by omega)
    exact ⟨fun _ => ⟨_, rfl, .nil⟩, fun h => absurd copyoutSafe_nil h⟩
  | succ fuel ih =>
    rw [copyoutLoop]
    by_cases hsrc : src = []
    · subst hsrc
      exact ⟨fun _ => ⟨_, rfl, .nil⟩, fun h => absurd copyoutSafe_nil h⟩
    have hpos : 0 < src.length := List.length_pos_iff.mpr hsrc
    have hmod := Nat.mod_lt dstva PGSIZE_pos
    have hfirst : ∀ v, Touches PGSIZE dstva src.length v → ¬ v < dstva / PGSIZE := by
      intro v hv
      have := hv.le
      omega
    rw [if_neg hsrc]
    dsimp only
    by_cases hclean : CleanAt k pt (dstva / PGSIZE) (dstva / PGSIZE)
    · by_cases hu : pt.User (dstva / PGSIZE)
      · -- The page is written, and the loop goes on.
        have hs := (hclean hu.1).2.2
        obtain ⟨k1, pt1, hpage, hcopied⟩ := copyoutPage_user (dstva % PGSIZE)
          (src.take (min (PGSIZE - dstva % PGSIZE) src.length)) hok hE hu hs
        have hpost := ((copyoutPage_ensures hok hE).of_ok hpage).2.2
        have hrest := @ih k1 pt1 (src.drop (min (PGSIZE - dstva % PGSIZE) src.length))
          ((dstva / PGSIZE + 1) * PGSIZE) (by simp; omega) hpost.ok hpost.exact
        rw [List.length_drop] at hrest
        rw [hpage, hcopied.copyoutSafe hpos hu hclean]
        refine ⟨fun hsafe => ?_, hrest.2⟩
        obtain ⟨r, hr, hret, hframe⟩ := hrest.1 hsafe
        refine ⟨r, hr, hret.trans (hcopied.writable hpos hu hs).symm, fun v hv => ?_⟩
        have hne : v ≠ dstva / PGSIZE := by
          rintro rfl
          simp [hu.2.2.2.1] at hv
        rw [← hcopied.pte v hne] at hv ⊢
        exact hframe v hv
      · -- The page is refused, and no page after it matters.
        have hplain : dstva / PGSIZE < MAXVPN →
            pt.reaches (dstva / PGSIZE) = true ∧ (pt.pte (dstva / PGSIZE)).flags.cow = false := by
          intro hlt
          obtain ⟨hr, hcow, -⟩ := hclean hlt
          refine ⟨hr, ?_⟩
          by_contra hc
          have hc : (pt.pte (dstva / PGSIZE)).flags.cow = true := by simpa using hc
          obtain ⟨hlt', hvalid, -⟩ := hok.lt_of_cow hc
          exact hu ⟨hlt, hr, hvalid, hcow hc, (allocatable_of_valid hE hlt' hvalid).ne_zero⟩
        rw [copyoutPage_refused hu hplain]
        constructor
        · intro _
          refine ⟨_, rfl, ⟨by simp, fun h => ?_⟩, fun _ _ => rfl⟩
          exact absurd (h _ (touches_head hpos)).1 hu
        · intro hunsafe
          refine absurd (fun w hw hbefore => ?_) hunsafe
          rcases Nat.lt_or_eq_of_le hw.le with hlt | heq
          · exact absurd (hbefore _ (touches_head hpos) hlt) hu
          · rwa [← heq]
    · rw [copyoutPage_fault hok hE hclean]
      refine ⟨fun h => absurd (h _ (touches_head hpos) ?_) hclean, fun _ => rfl⟩
      intro v hv hlt
      exact absurd hlt (hfirst v hv)

theorem copyout_spec (dstva : ℕ) (src : List UInt8) (hok : PtOk pt n)
    (hE : KOk R k (pt.shares + M)) :
    (CopyoutSafe k pt dstva src.length → ∃ r, copyout R dstva src k pt = .ok r ∧
      CopyoutPost k pt dstva src.length r) ∧
    (¬ CopyoutSafe k pt dstva src.length → copyout R dstva src k pt = .fail .fault) :=
  copyoutLoop_spec src.length le_rfl hok hE

end

/-! ## The result -/

/-- `copyout` ends without a fault: it returns 0 if every page of the range is mapped with `PTE_U`
and there is memory for the copies, and -1 otherwise, and does not change the entry of a page that
lacks `PTE_U`. -/
def CopyoutClean (R : Ram) (dstva : ℕ) (src : List UInt8) (k : Kmem) (pt : PageTable) : Prop :=
  ∃ ok k' pt', copyout R dstva src k pt = .ok (ok, k', pt') ∧
    (ok = true ↔ ∀ v, Touches PGSIZE dstva src.length v →
      pt.User v ∧ Supplied k pt (dstva / PGSIZE) v) ∧
    ∀ v, (pt.pte v).flags.u = false → pt'.pte v = pt.pte v

section
variable {I : Type} [Fintype I] [DecidableEq I] {R : Ram} {s : State I}

theorem Inv.copyout_ok_iff (hinv : Inv R s) {i : I} {p : Proc} (hp : s.slot i = .live p)
    {dstva : ℕ} {src : List UInt8} {ok : Bool} {k : Kmem} {pt : PageTable}
    (h : copyout R dstva src s.kmem p.pt = .ok (ok, k, pt)) :
    ok = true ↔ p.pt.UserRange dstva src.length := by
  have hspec := copyout_spec dstva src (hinv.live_ok hp) (hinv.exact_live hp)
  by_cases hsafe : CopyoutSafe s.kmem p.pt dstva src.length
  · obtain ⟨r, heq, hret, -⟩ := hspec.1 hsafe
    rw [h] at heq
    cases heq
    rw [hret]
    refine ⟨fun hw v hv => (hw v hv).1, fun hu v hv => ⟨hu v hv, ?_⟩⟩
    exact (hsafe v hv (fun w hw _ => hu w hw) (hu v hv).1).2.2
  · rw [hspec.2 hsafe] at h
    cases h

theorem Inv.copyout_returns (hinv : Inv R s) {i : I} {p : Proc} (hp : s.slot i = .live p)
    {dstva : ℕ} {src src' : List UInt8} {r : Bool × Kmem × PageTable}
    (h : copyout R dstva src' s.kmem p.pt = .ok r) (hlen : src.length = src'.length) :
    ∃ r, copyout R dstva src s.kmem p.pt = .ok r := by
  have hspec (src : List UInt8) :=
    copyout_spec dstva src (hinv.live_ok hp) (hinv.exact_live hp)
  by_cases hsafe : CopyoutSafe s.kmem p.pt dstva src.length
  · obtain ⟨r, heq, -⟩ := (hspec src).1 hsafe
    exact ⟨r, heq⟩
  · rw [hlen] at hsafe
    rw [(hspec src').2 hsafe] at h
    cases h

/-- `copyout` is clean exactly if every page up to the first one that the user may not access is
above `MAXVA`, or has its leaf table and, if it is marked copy-on-write, `PTE_U` and a free page for
the copy. -/
theorem copyoutClean_iff (hs : (sys R I).Reachable s) {i : I} {p : Proc}
    (hp : s.slot i = .live p) (dstva : ℕ) (src : List UInt8) :
    CopyoutClean R dstva src s.kmem p.pt ↔ CopyoutSafe s.kmem p.pt dstva src.length := by
  have hinv := reachable_inv hs
  have hspec := copyout_spec dstva src (hinv.live_ok hp) (hinv.exact_live hp)
  constructor
  · rintro ⟨ok, k', pt', heq, -⟩
    by_contra hunsafe
    rw [hspec.2 hunsafe] at heq
    cases heq
  · intro hsafe
    obtain ⟨⟨ok, k', pt'⟩, heq, hret, hframe⟩ := hspec.1 hsafe
    exact ⟨ok, k', pt', heq, hret, hframe⟩

end

theorem touches_page_zero {v : ℕ} (h : Touches PGSIZE 5 [(1 : UInt8), 2].length v) : v = 0 := by
  obtain ⟨i, hi, rfl⟩ := h
  have hi : i < 2 := hi
  exact Nat.div_eq_of_lt (by simp only [PGSIZE]; omega)

theorem copyoutClean_iff_fork : ∃ (s : State (Fin 2)) (p : Proc),
    (sys smallRam (Fin 2)).Reachable s ∧ s.slot 1 = .live p ∧
    (p.pt.pte 0).flags.cow = true ∧ CopyoutClean smallRam 5 [1, 2] s.kmem p.pt := by
  obtain ⟨s, p, hreach, hp, hu, hcow, hfree⟩ := forked_child
  refine ⟨s, p, hreach, hp, hcow, (copyoutClean_iff hreach hp 5 [1, 2]).mpr ?_⟩
  rintro w hw - -
  rw [touches_page_zero hw, show 5 / PGSIZE = 0 by simp [PGSIZE]]
  exact ⟨hu.2.1, fun _ => hu.2.2.2.1, fun _ => by simpa [taken] using List.length_pos_iff.mpr hfree⟩

/-- A `copyout` to an address whose leaf table does not exist dereferences a null pointer. -/
theorem copyout_null_entry : ¬ ∀ (s : State (Fin 2)) (i : Fin 2) (p : Proc),
    (sys smallRam (Fin 2)).Reachable s → s.slot i = .live p →
      ∀ dstva < 2 ^ 64, ∀ src, CopyoutClean smallRam dstva src s.kmem p.pt := by
  intro hall
  have hrun : (runFrom smallRam (0 : Fin 2) [] []).map (fun s => s.check 0 fun p _ =>
      !p.pt.reaches (2 ^ 30 / PGSIZE)) = some true := by decide +kernel
  obtain ⟨s, p, hreach, hp, htest⟩ := live_of_runFrom hrun
  obtain ⟨ok, k', pt', heq, -⟩ := hall s 0 p hreach hp (2 ^ 30) (by decide) [1]
  have hinv := reachable_inv hreach
  have hunsafe : ¬ CopyoutSafe s.kmem p.pt (2 ^ 30) [(1 : UInt8)].length := by
    intro hsafe
    have hclean := hsafe _ (touches_head (by decide)) fun v hv hlt => absurd hv.le (by omega)
    have hr := (hclean (by simp [PGSIZE, MAXVPN])).1
    rw [Bool.not_eq_true', hr] at htest
    cases htest
  rw [(copyout_spec _ _ (hinv.live_ok hp) (hinv.exact_live hp)).2 hunsafe] at heq
  cases heq

end Xv6.Vm
