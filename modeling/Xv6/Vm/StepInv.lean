import Xv6.Vm.Inv

/-! # Every operation keeps the invariant

One step of the memory system keeps the counts exact, and on the address spaces it is the step of
`spaceStep`.
-/

namespace Xv6.Vm
set_option autoImplicit false
open Function (update update_self update_of_ne update_eq_self)
open Kmem RefPool
open Outcome (ensures_bind)
open Multiset (singleton_add le_add_left le_cons_self le_add_right map_cons add_cons mem_coe
  cons_add)

section
variable {I : Type} {s : State I} {i : I}

variable {p : Proc}

theorem running_eq_some : s.running i = some p ↔ s.slot i = .live p ∧ p.image = none := by
  unfold State.running
  cases s.slot i with
  | unused => simp
  | fresh q => simp
  | live q =>
    simp only [Option.isNone_iff_eq_none, Option.ite_none_right_eq_some, Option.some.injEq,
      Slot.live.injEq]
    constructor
    · rintro ⟨h, rfl⟩
      exact ⟨rfl, h⟩
    · rintro ⟨rfl, h⟩
      exact ⟨h, rfl⟩

theorem withProc_ensures {R : Ram} {f : Proc → Outcome Failure (State I)} {Q : State I → Prop}
    (hf : ∀ p, s.slot i = .live p → p.image = none → (f p).Ensures (Expected R) Q) :
    (withProc s i f).Ensures (Expected R) Q := by
  unfold withProc
  cases hp : s.running i with
  | none => trivial
  | some p =>
    obtain ⟨hslot, him⟩ := running_eq_some.mp hp
    exact hf p hslot him

variable [DecidableEq I]

theorem onProc_live (hslot : s.slot i = .live p) (f : ProcView → ProcView) :
    onProc s.view i f = update s.view i (.live (f (p.view s.kmem))) := by
  have h : s.view i = .live (p.view s.kmem) := by
    rw [State.view, hslot]
    rfl
  simp only [onProc, h]

theorem onProc_congr (hslot : s.slot i = .live p) {f g : ProcView → ProcView}
    (h : f (p.view s.kmem) = g (p.view s.kmem)) : onProc s.view i f = onProc s.view i g := by
  rw [onProc_live hslot, onProc_live hslot, h]

end

section
variable {I : Type} [Fintype I] {R : Ram} {s : State I} {i : I} {p : Proc} {k : Kmem}
  {pt : PageTable}

theorem Inv.live_ok (h : Inv R s) (hslot : s.slot i = .live p) : PtOk p.pt (pgroundup p.sz) := by
  have hok := h.slots i
  rw [hslot] at hok
  exact hok.1

theorem Inv.image_ok (h : Inv R s) (hslot : s.slot i = .live p) {im : Image}
    (him : p.image = some im) : PtOk im.pt (pgroundup im.sz) ∧ (im.pt.space s.kmem).NoCow := by
  have hok := h.slots i
  rw [hslot] at hok
  exact hok.2 im him

variable [DecidableEq I]

structure StepPost (R : Ram) (s : State I) (e : Event I) (s' : State I) : Prop where
  inv : Inv R s'
  view : ∃ n ok, s'.view = spaceStep (fun m => m.shareTo n) ok s.view e ∧
    (s'.kmem.oom = false → s.kmem.oom = false ∧ ok = true)

/-! ## One page table of a process -/

/-- The shares beside those of the page table of `p`. -/
def Proc.beside (p : Proc) (N : Multiset (Share Ppn)) : Multiset (Share Ppn) :=
  .sole p.trapframe ::ₘ (imageShares p.image + N)

theorem Proc.shares_beside (p : Proc) (N : Multiset (Share Ppn)) :
    p.shares + N = p.pt.shares + p.beside N := by
  simp only [Proc.shares, Proc.beside, ← singleton_add]
  abel

theorem Proc.le_beside (p : Proc) (N : Multiset (Share Ppn)) : N ≤ p.beside N :=
  (le_add_left _ _).trans (le_cons_self _ _)

theorem Inv.exact_live (h : Inv R s) (hslot : s.slot i = .live p) :
    KOk R s.kmem (p.pt.shares + p.beside (s.rest {i})) := by
  have hE := h.exact_at i
  rw [hslot] at hE
  rwa [← Proc.shares_beside]

theorem Inv.setPt (h : Inv R s) (hslot : s.slot i = .live p) {sz : ℕ} {m : Space}
    (hpost : Post R (p.beside (s.rest {i})) s.kmem (pgroundup sz) m k pt) :
    Inv R (s.setSlot i (.live { p with pt := pt, sz := sz }) k) ∧
      (s.setSlot i (.live { p with pt := pt, sz := sz }) k).view =
        onProc s.view i fun p => { p with space := m, sz := sz } := by
  have him : imageShares p.image ≤ p.beside (s.rest {i}) :=
    (le_add_right _ _).trans (le_cons_self _ _)
  have hset := h.setSlot (x := .live { p with pt := pt, sz := sz }) (k := k) ?_
    (hpost.keeps.mono (p.le_beside _)) ⟨hpost.ok, fun im him' => ?_⟩
  · rw [onProc_live hslot]
    refine ⟨hset.1, hset.2.trans ?_⟩
    have hview : Proc.view { p with pt := pt, sz := sz } k =
        { p.view s.kmem with space := m, sz := sz } := by
      simp only [Proc.view, hpost.space, image_view_keeps hpost.keeps him]
    simp only [Slot.view, hview]
  · rw [show (Slot.live { p with pt := pt, sz := sz }).shares =
      Proc.shares { p with pt := pt, sz := sz } from rfl, Proc.shares_beside]
    exact hpost.exact
  · obtain ⟨hok, hno⟩ := h.image_ok hslot him'
    refine ⟨hok, ?_⟩
    have hle : im.pt.shares ≤ p.beside (s.rest {i}) := by
      rw [show p.image = some im from him'] at him
      exact him
    rw [space_keeps hpost.keeps hle]
    exact hno

theorem Inv.pt_step (h : Inv R s) (ok : Bool) {e : Event I} (hslot : s.slot i = .live p) {sz : ℕ}
    {m : Space} {f : ProcView → ProcView}
    (hpost : Post R (p.beside (s.rest {i})) s.kmem (pgroundup sz) m k pt)
    (he : spaceStep (fun m => m.shareTo 0) ok s.view e = onProc s.view i f)
    (hf : { p.view s.kmem with space := m, sz := sz } = f (p.view s.kmem))
    (hoom : k.oom = false → s.kmem.oom = false ∧ ok = true) :
    StepPost R s e (s.setSlot i (.live { p with pt := pt, sz := sz }) k) := by
  obtain ⟨hinv, hview⟩ := h.setPt hslot hpost
  exact ⟨hinv, 0, ok, hview.trans ((onProc_congr hslot hf).trans he.symm), hoom⟩

/-! ## The page table that `exec` builds -/

/-- The shares beside those of the image of `p`. -/
def Proc.besideImage (p : Proc) (N : Multiset (Share Ppn)) : Multiset (Share Ppn) :=
  .sole p.trapframe ::ₘ (p.pt.shares + N)

theorem Proc.shares_besideImage (p : Proc) (N : Multiset (Share Ppn)) :
    p.shares + N = imageShares p.image + p.besideImage N := by
  simp only [Proc.shares, Proc.besideImage, ← singleton_add]
  abel

section
variable (h : Inv R s)
include h

theorem Inv.exact_image (hslot : s.slot i = .live p) :
    KOk R s.kmem (imageShares p.image + p.besideImage (s.rest {i})) := by
  have hE := h.exact_at i
  rw [hslot] at hE
  rwa [← Proc.shares_besideImage]

theorem Inv.setImage (hslot : s.slot i = .live p) (image : Option Image)
    (hE : KOk R k (imageShares image + p.besideImage (s.rest {i})))
    (hkeeps : Keeps (p.besideImage (s.rest {i})) s.kmem k)
    (hok : ∀ im, image = some im → PtOk im.pt (pgroundup im.sz) ∧ (im.pt.space k).NoCow) :
    Inv R (s.setSlot i (.live { p with image := image }) k) ∧
      (s.setSlot i (.live { p with image := image }) k).view =
        onProc s.view i fun p => { p with image := image.map fun im => im.view k } := by
  have hrest : s.rest {i} ≤ p.besideImage (s.rest {i}) :=
    (le_add_left _ _).trans (le_cons_self _ _)
  have hpt : p.pt.shares ≤ p.besideImage (s.rest {i}) :=
    (le_add_right _ _).trans (le_cons_self _ _)
  have hset := h.setSlot (x := .live { p with image := image }) (k := k) ?_
    (hkeeps.mono hrest) ⟨h.live_ok (p := p) hslot, hok⟩
  · rw [onProc_live hslot]
    refine ⟨hset.1, hset.2.trans ?_⟩
    simp only [Slot.view, Proc.view, space_keeps hkeeps hpt]
  · rw [show (Slot.live { p with image := image }).shares =
      Proc.shares { p with image := image } from rfl, Proc.shares_besideImage]
    exact hE

/-! ## Operations of the kernel and of running processes -/

theorem Inv.setKmem {l : List Ppn} (hE : KOk R k (∑ j, (s.slot j).shares + kernelShares l))
    (hkeeps : Keeps (∑ j, (s.slot j).shares) s.kmem k) : Inv R { s with kmem := k, kernel := l } ∧
      State.view { s with kmem := k, kernel := l } = s.view := by
  have hle : ∀ j, (s.slot j).shares ≤ ∑ j, (s.slot j).shares := by
    intro j
    rw [← Finset.add_sum_erase _ _ (Finset.mem_univ j)]
    exact le_add_right _ _
  refine ⟨⟨hE, fun j => (h.slots j).keeps hkeeps (hle j)⟩, ?_⟩
  funext j
  exact Slot.view_keeps hkeeps (hle j)

theorem kalloc_step : (step R s .kalloc).Ensures (Expected R) (StepPost R s .kalloc) := by
  rw [step]
  rcases hk : kalloc s.kmem with ⟨_ | pg, k⟩
  · obtain ⟨hE, hdata, hoom⟩ := kalloc_none hk h.exact
    obtain ⟨hinv, hview⟩ := h.setKmem hE fun pg _ => by rw [hdata]
    exact ⟨hinv, 0, false, hview, fun ho => absurd (hoom.symm.trans ho) (by simp)⟩
  · obtain ⟨hx, -, -, hoom⟩ := kalloc_some hk h.exact
    have hE : KOk R k (∑ j, (s.slot j).shares + kernelShares (pg :: s.kernel)) := by
      rw [kernelShares, ← Multiset.cons_coe, map_cons, add_cons]
      exact hx (.sole pg) rfl
    obtain ⟨hinv, hview⟩ := h.setKmem hE
      ((kalloc_keeps hk h.exact).mono (le_add_right _ _))
    exact ⟨hinv, 0, true, hview, fun ho => ⟨hoom.symm.trans ho, rfl⟩⟩

theorem kfree_step (pg : Ppn) :
    (step R s (.kfree pg)).Ensures (Expected R) (StepPost R s (.kfree pg)) := by
  rw [step]
  split
  · next hmem =>
    have hkernel : kernelShares s.kernel = .sole pg ::ₘ kernelShares (s.kernel.erase pg) := by
      rw [kernelShares, kernelShares, ← Multiset.coe_erase, ← map_cons,
        Multiset.cons_erase (mem_coe.mpr hmem)]
    have hE := h.exact
    rw [State.shares, hkernel, add_cons] at hE
    refine ensures_bind ((kfree_freed hE).mono ?_)
    rintro k ⟨hE', hkeeps, hoom⟩
    obtain ⟨hinv, hview⟩ := h.setKmem hE' (hkeeps.mono (le_add_right _ _))
    exact ⟨hinv, 0, true, hview, fun ho => ⟨hoom.symm.trans ho, rfl⟩⟩
  · trivial

theorem allocproc_step (i : I) :
    (step R s (.allocproc i)).Ensures (Expected R) (StepPost R s (.allocproc i)) := by
  rw [step]
  cases hslot : s.slot i with
  | fresh p => trivial
  | live p => trivial
  | unused =>
    unfold allocproc
    rcases hk : kalloc s.kmem with ⟨_ | trapframe, k1⟩
    · obtain ⟨hE, hdata, hoom⟩ := kalloc_none hk h.exact
      obtain ⟨hinv, hview⟩ := h.setKmem hE fun pg _ => by rw [hdata]
      exact ⟨hinv, 0, false, hview, fun ho => absurd (hoom.symm.trans ho) (by simp)⟩
    obtain ⟨hx, -, -, hoom1⟩ := kalloc_some hk h.exact
    have hkeeps1 := kalloc_keeps hk h.exact
    have hE1 := hx (.sole trapframe) rfl
    refine ensures_bind ((procPagetable_ensures hE1).mono ?_)
    rintro ⟨pt, k2⟩ ⟨hoom2, hnone, hsome⟩
    have hle : s.shares ≤ .sole trapframe ::ₘ s.shares := le_cons_self _ _
    cases pt with
    | none =>
      obtain ⟨hE2, hkeeps2⟩ := hnone rfl
      refine ensures_bind ((kfree_freed hE2).mono ?_)
      rintro k3 ⟨hE3, hkeeps3, hoom3⟩
      have hkeeps := (hkeeps1.trans (hkeeps2.mono hle)).trans hkeeps3
      obtain ⟨hinv, hview⟩ := h.setKmem hE3 (hkeeps.mono (le_add_right _ _))
      refine ⟨hinv, 0, false, hview, fun ho => ?_⟩
      rw [show State.kmem { s with kmem := k3 } = k3 from rfl, hoom3] at ho
      exact Bool.noConfusion (hoom2 ho).2
    | some pt =>
      have hpost := hsome pt rfl
      have hrest : s.shares = s.rest {i} := by
        rw [shares_eq_rest s {i}, Finset.sum_singleton, hslot]
        exact zero_add _
      have hset := h.setSlot (x := .fresh ⟨trapframe, pt, 0, none⟩) (k := k2) ?_
        (by rw [← hrest]; exact hkeeps1.trans (hpost.keeps.mono hle)) ⟨hpost.ok, rfl, rfl⟩
      · refine ⟨hset.1, 0, true, hset.2, fun ho => ⟨?_, rfl⟩⟩
        have := (hoom2 ho).1
        rwa [hoom1] at this
      · have hE2 := hpost.exact
        rw [hrest] at hE2
        show KOk R k2 (.sole trapframe ::ₘ (pt.shares + 0) + s.rest {i})
        rwa [add_zero, cons_add, ← add_cons]

/-! ### `fork` -/

theorem Inv.setSlots {j : I} (hij : i ≠ j) {x y : Slot} {c : Kmem}
    (hE : KOk R k (x.shares + (y.shares + s.rest {i, j}))) (hkeeps : Keeps (s.rest {i, j}) s.kmem k)
    (hx : SlotOk k x) (hy : SlotOk k y) :
    Inv R ((s.setSlot i x c).setSlot j y k) ∧ ((s.setSlot i x c).setSlot j y k).view =
      update (update s.view i (x.view k)) j (y.view k) := by
  set s' := (s.setSlot i x c).setSlot j y k with hs'
  have hi : s'.slot i = x := by simp [hs', State.setSlot, hij]
  have hj : s'.slot j = y := by simp [hs', State.setSlot]
  have hslot : ∀ l, l ∉ ({i, j} : Finset I) → s'.slot l = s.slot l := by
    intro l hl
    simp only [Finset.mem_insert, Finset.mem_singleton, not_or] at hl
    simp [hs', State.setSlot, hl.1, hl.2]
  have hsum : KOk R s'.kmem (∑ l ∈ {i, j}, (s'.slot l).shares + s.rest {i, j}) := by
    rw [Finset.sum_pair hij, hi, hj, add_assoc]
    exact hE
  have hok : ∀ l ∈ ({i, j} : Finset I), SlotOk s'.kmem (s'.slot l) := by
    intro l hl
    rcases Finset.mem_insert.mp hl with rfl | hl
    · rw [hi]
      exact hx
    · obtain rfl := Finset.mem_singleton.mp hl
      rw [hj]
      exact hy
  obtain ⟨hinv, hview⟩ := h.change s' {i, j} rfl hslot hsum hkeeps hok
  refine ⟨hinv, ?_⟩
  funext l
  by_cases hlj : l = j
  · subst hlj
    rw [update_self, State.view, hj]
    rfl
  · rw [update_of_ne hlj]
    by_cases hli : l = i
    · subst hli
      rw [update_self, State.view, hi]
      rfl
    · rw [update_of_ne hli]
      exact hview l (by simp [hli, hlj])

end

theorem share_truncate {n : ℕ} (hok : PtOk pt n) :
    (pt.space k).share.truncate n = (pt.space k).shareTo n := by
  funext v
  simp only [Space.truncate, Space.shareTo]
  split
  · rfl
  · next hv =>
    have h := congrFun (hok.truncate_self k) v
    rw [Space.truncate, if_neg hv] at h
    exact h

theorem freeproc_ensures {M : Multiset (Share Ppn)} (hok : PtOk p.pt (pgroundup p.sz))
    (hE : KOk R k (.sole p.trapframe ::ₘ (p.pt.shares + M))) :
    (freeproc R p k).Ensures (Expected R) (Freed R M k) := by
  refine ensures_bind ((kfree_freed hE).mono ?_)
  intro k1 h1
  exact (procFreepagetable_ensures hok h1.1).mono fun k2 h2 => h1.trans h2

theorem fork_step (h : Inv R s) (i j : I) :
    (step R s (.fork i j)).Ensures (Expected R) (StepPost R s (.fork i j)) := by
  rw [step]
  refine withProc_ensures fun p hslot him => ?_
  cases hnew : s.slot j with
  | unused => trivial
  | live np => trivial
  | fresh np =>
    have hij : i ≠ j := by
      rintro rfl
      rw [hslot] at hnew
      cases hnew
    have hnp := h.slots j
    rw [hnew] at hnp
    obtain ⟨hnpok, hnpsz, hnpim⟩ := hnp
    have hpok := h.live_ok hslot
    set M := .sole p.trapframe ::ₘ (.sole np.trapframe ::ₘ s.rest {i, j}) with hM
    have hE : KOk R s.kmem (np.pt.shares + (p.pt.shares + M)) := by
      have hE := h.exact
      rw [shares_eq_rest s {i, j}, Finset.sum_pair hij, hslot, hnew] at hE
      simp only [Slot.shares, Proc.shares, him, hnpim, imageShares, add_zero] at hE
      convert hE using 1
      simp only [hM, ← singleton_add]
      abel
    have hrest : s.rest {i, j} ≤ M :=
      (le_cons_self _ _).trans (le_cons_self _ _)
    have hview : s.view i = .live (p.view s.kmem) := by
      rw [State.view, hslot]
      rfl
    refine ensures_bind ((uvmcopy_ensures hpok hnpok hE).mono ?_)
    rintro ⟨ok, k, old, new⟩ hcopy
    cases ok with
    | true =>
      obtain ⟨hold, hnewok, hnewspace⟩ := hcopy.done rfl
      rw [share_truncate hpok] at hnewspace
      have hset := h.setSlots hij (x := .live { p with pt := old })
        (y := .live { np with pt := new, sz := p.sz }) (c := k) (k := k) ?_
        (hcopy.keeps.mono hrest) ⟨hcopy.old_ok, by simp [him]⟩ ⟨hnewok, by simp [hnpim]⟩
      · refine ⟨hset.1, pgroundup p.sz, true, hset.2.trans ?_, hcopy.oom⟩
        simp only [spaceStep, hview, onProc_live hslot, if_true]
        have hv : p.view s.kmem = ⟨p.pt.space s.kmem, p.sz, none⟩ := by simp [Proc.view, him]
        have hold' : old.space k = _ := hold
        have hnew' : new.space k = _ := hnewspace
        simp only [Slot.view, Proc.view, him, hnpim, Option.map_none, hold', hnew']
      · have hE' := hcopy.exact
        simp only [Slot.shares, Proc.shares, him, hnpim, imageShares, add_zero]
        convert hE' using 1
        simp only [hM, ← singleton_add]
        abel
    | false =>
      obtain ⟨⟨n, hold⟩, hnewok, -⟩ := hcopy.undone rfl
      have hE' : KOk R k (.sole np.trapframe ::ₘ
          (new.shares + (.sole p.trapframe ::ₘ (old.shares + s.rest {i, j})))) := by
        convert hcopy.exact using 1
        simp only [hM, ← singleton_add]
        abel
      have hnewok' : PtOk new (pgroundup np.sz) := by
        rw [hnpsz, pgroundup_zero]
        exact hnewok
      refine ensures_bind ((freeproc_ensures hnewok'
        hE').mono ?_)
      rintro k2 ⟨hE2, hkeeps2, hoom2⟩
      have hkeeps : Keeps (s.rest {i, j}) s.kmem k2 := by
        refine (hcopy.keeps.mono hrest).trans (hkeeps2.mono ?_)
        exact (le_add_left _ _).trans (le_cons_self _ _)
      have hset := h.setSlots hij (x := .live { p with pt := old })
        (y := .unused) (c := k) (k := k2) ?_ hkeeps ⟨hcopy.old_ok, by simp [him]⟩ trivial
      · refine ⟨hset.1, n, false, hset.2.trans ?_, fun ho => ?_⟩
        · simp only [spaceStep, hview, onProc_live hslot]
          have hspace : old.space k2 = (p.pt.space s.kmem).shareTo n := by
            have hle : old.shares ≤ .sole p.trapframe ::ₘ (old.shares + s.rest {i, j}) :=
              (le_add_right _ _).trans (le_cons_self _ _)
            rw [space_keeps hkeeps2 hle]
            exact hold
          simp [Slot.view, Proc.view, him, hspace]
        · rw [show State.kmem (State.setSlot _ _ _ k2) = k2 from rfl, hoom2] at ho
          exact Bool.noConfusion (hcopy.oom ho).2
      · simp only [Slot.shares, Proc.shares, him, imageShares, add_zero, zero_add,
          cons_add]
        exact hE2

/-! ### The other operations -/

theorem growproc_step (h : Inv R s) (i : I) (n : ℤ) :
    (step R s (.growproc i n)).Ensures (Expected R) (StepPost R s (.growproc i n)) := by
  rw [step]
  refine withProc_ensures fun p hslot _ => ?_
  have hok := h.live_ok hslot
  have hE := h.exact_live hslot
  unfold growproc
  split
  · next hpos =>
    refine ensures_bind ((uvmalloc_ensures hok hE).mono ?_)
    rintro ⟨sz, k, pt⟩ ⟨hcases, hoom⟩
    dsimp only
    rcases hcases with ⟨hlt, hr⟩ | ⟨hle, hsz, hpost⟩ | ⟨hle, hsz, hfail, hpost⟩
    · -- The sum has wrapped around: `uvmalloc` does nothing.
      obtain ⟨rfl, rfl, rfl⟩ : sz = p.sz ∧ k = s.kmem ∧ pt = p.pt := by simpa using hr
      have hif : (if p.sz = 0 then p.sz else p.sz) = p.sz := by split <;> rfl
      rw [hif]
      refine h.pt_step true hslot (.refl hok hE) rfl ?_ fun ho => ⟨ho, rfl⟩
      have hno : ¬ (p.view s.kmem).sz ≤ addSize (p.view s.kmem).sz n := not_le.mpr hlt
      simp only [ProcView.growproc, if_pos hpos, Bool.true_and, hno, decide_false,
        Bool.false_eq_true, if_false]
      rfl
    · have hif : (if sz = 0 then p.sz else sz) = addSize p.sz n := by
        have hsz : sz = addSize p.sz n := hsz
        split
        · omega
        · exact hsz
      rw [hif]
      refine h.pt_step true hslot hpost rfl ?_ fun ho => ⟨hoom ho, rfl⟩
      have hyes : (p.view s.kmem).sz ≤ addSize (p.view s.kmem).sz n := hle
      simp only [ProcView.growproc, if_pos hpos, Bool.true_and, hyes, decide_true, if_true]
      rfl
    · have hif : (if sz = 0 then p.sz else sz) = p.sz := if_pos hsz
      rw [hif]
      refine h.pt_step false hslot hpost rfl ?_ fun ho => absurd (hfail.symm.trans ho) (by simp)
      simp only [ProcView.growproc, if_pos hpos, Bool.false_and, Bool.false_eq_true, if_false]
      rfl
  next hpos =>
  split
  · next hneg =>
    refine ensures_bind ((uvmdealloc_ensures hok hE).mono ?_)
    rintro ⟨sz, k, pt⟩ ⟨hsz, hpost, hoom⟩
    obtain rfl : sz = min p.sz (addSize p.sz n) := hsz
    refine h.pt_step true hslot hpost rfl ?_ fun ho => ⟨hoom.symm.trans ho, rfl⟩
    simp only [ProcView.growproc, if_neg hpos, if_pos hneg]
    rfl
  · next hneg =>
    refine ⟨h, 0, true, ?_, fun ho => ⟨ho, rfl⟩⟩
    simp only [spaceStep, onProc_live hslot, ProcView.growproc, if_neg hpos, if_neg hneg]
    have hview : s.view i = .live (p.view s.kmem) := by
      rw [State.view, hslot]
      rfl
    rw [← hview, update_eq_self]

theorem store_step (h : Inv R s) (i : I) (va : ℕ) (b : UInt8) :
    (step R s (.store i va b)).Ensures (Expected R) (StepPost R s (.store i va b)) := by
  rw [step]
  refine withProc_ensures fun p hslot _ => ?_
  refine ensures_bind ((userStore_ensures (h.live_ok hslot) (h.exact_live hslot)).mono ?_)
  rintro ⟨done, k, pt⟩ ⟨hoom, hpost⟩
  exact h.pt_step true hslot hpost rfl rfl fun ho => ⟨hoom.symm.trans ho, rfl⟩

theorem copyout_step (h : Inv R s) (i : I) (dstva : ℕ) (src : List UInt8) :
    (step R s (.copyout i dstva src)).Ensures (Expected R)
      (StepPost R s (.copyout i dstva src)) := by
  rw [step]
  refine withProc_ensures fun p hslot _ => ?_
  refine ensures_bind ((copyout_ensures (h.live_ok hslot) (h.exact_live hslot)).mono ?_)
  rintro ⟨done, k, pt⟩ ⟨hoom, -, hpost⟩
  exact h.pt_step true hslot hpost rfl rfl fun ho => ⟨hoom.symm.trans ho, rfl⟩

theorem freeproc_step (h : Inv R s) (i : I) :
    (step R s (.freeproc i)).Ensures (Expected R) (StepPost R s (.freeproc i)) := by
  rw [step]
  refine withProc_ensures fun p hslot him => ?_
  have hE := h.exact_at i
  rw [hslot] at hE
  simp only [Slot.shares, Proc.shares, him, imageShares, add_zero, cons_add] at hE
  refine ensures_bind ((freeproc_ensures (h.live_ok hslot) hE).mono ?_)
  rintro k ⟨hE', hkeeps, hoom⟩
  have hset := h.setSlot (x := .unused) (k := k) ?_ hkeeps trivial
  · exact ⟨hset.1, 0, true, hset.2, fun ho => ⟨hoom.symm.trans ho, rfl⟩⟩
  · rw [Slot.shares, zero_add]
    exact hE'

end
end Xv6.Vm
