import Xv6.Vm.StepInv

/-! # The stages of `exec` keep the invariant -/

namespace Xv6.Vm
set_option autoImplicit false
open Kmem RefPool
open Outcome (ensures_bind)

/-! ## Images are not shared -/

namespace Space
variable {m : Space}

theorem NoCow.empty : NoCow .empty := by
  intro v p h
  cases h

theorem NoCow.grow (h : m.NoCow) (a n : ℕ) {perm : Flags} (hp : perm.cow = false) :
    (m.grow a n perm).NoCow := by
  intro v p hv
  simp only [Space.grow] at hv
  split at hv
  · cases hv
    exact hp
  · exact h v p hv

theorem NoCow.update (h : m.NoCow) (v : ℕ) {f : UPage → UPage}
    (hf : ∀ p, (f p).flags.cow = p.flags.cow) :
    NoCow (Function.update m v ((m v).map f)) := by
  intro w p hw
  by_cases hwv : w = v
  · subst hwv
    rw [Function.update_self] at hw
    obtain ⟨q, hq, rfl⟩ := Option.map_eq_some_iff.mp hw
    rw [hf]
    exact h w q hq
  · rw [Function.update_of_ne hwv] at hw
    exact h w p hw

theorem NoCow.write (h : m.NoCow) (v off : ℕ) (src : List UInt8) : (m.write v off src).NoCow :=
  h.update v fun _ => rfl

theorem NoCow.setFlags (h : m.NoCow) (v : ℕ) {f : Flags → Flags} (hf : ∀ x, (f x).cow = x.cow) :
    (m.setFlags v f).NoCow :=
  h.update v fun p => hf p.flags

theorem NoCow.copyoutPage (h : m.NoCow) {v off : ℕ} {src : List UInt8} {m' : Space}
    (hc : m.copyoutPage v off src = some m') : m' = m.write v off src := by
  unfold Space.copyoutPage at hc
  cases hp : m v with
  | none => simp [hp] at hc
  | some p =>
    simp only [hp, h v p hp, Bool.false_eq_true, if_false, Option.ite_none_right_eq_some,
      Option.some.injEq] at hc
    exact hc.2.symm

theorem NoCow.copyoutLoop (fuel : ℕ) {dstva : ℕ} {src : List UInt8} (h : m.NoCow) :
    (Space.copyoutLoop fuel dstva src m).2.NoCow := by
  induction fuel generalizing dstva src m with
  | zero => exact h
  | succ fuel ih =>
    unfold Space.copyoutLoop
    split
    · exact h
    · dsimp only
      split
      · exact h
      · next m' hm' =>
        refine ih ?_
        rw [h.copyoutPage hm']
        exact h.write _ _ _

end Space

section
variable {I : Type} {s : State I} {i : I}

theorem execing_eq_some {p : Proc} {im : Image} :
    s.execing i = some (p, im) ↔ s.slot i = .live p ∧ p.image = some im := by
  unfold State.execing
  cases s.slot i with
  | unused => simp
  | fresh q => simp
  | live q =>
    simp only [Option.map_eq_some_iff, Prod.mk.injEq, Slot.live.injEq]
    constructor
    · rintro ⟨im', h, rfl, rfl⟩
      exact ⟨rfl, h⟩
    · rintro ⟨rfl, h⟩
      exact ⟨im, h, rfl, rfl⟩

theorem onImage_eq [DecidableEq I] {p : Proc} {im : Image} (hslot : s.slot i = .live p)
    (him : p.image = some im) (f : ImageView → Option ImageView) {x : Option ImageView}
    (hx : f (im.view s.kmem) = x) :
    onImage s.view i f = onProc s.view i fun p => { p with image := x } := by
  refine onProc_congr hslot ?_
  simp only [Proc.view, him, Option.map_some, Option.bind_some, hx]

end

section
variable {I : Type} [Fintype I] [DecidableEq I] {R : Ram} {s : State I} {i : I}

theorem Inv.exact_exec (h : Inv R s) {p : Proc} {im : Image} (hslot : s.slot i = .live p)
    (him : p.image = some im) : KOk R s.kmem (im.pt.shares + p.besideImage (s.rest {i})) := by
  have hE := h.exact_image hslot
  rwa [him] at hE

theorem Inv.withImage_ensures (h : Inv R s) {f : Proc → Image → Outcome Failure (State I)}
    {Q : State I → Prop} (hf : ∀ p im, s.slot i = .live p → p.image = some im →
      PtOk im.pt (pgroundup im.sz) → (im.pt.space s.kmem).NoCow →
      KOk R s.kmem (im.pt.shares + p.besideImage (s.rest {i})) → (f p im).Ensures (Expected R) Q) :
    (withImage s i f).Ensures (Expected R) Q := by
  unfold withImage
  cases hp : s.execing i with
  | none => trivial
  | some x =>
    obtain ⟨p, im⟩ := x
    obtain ⟨hslot, him⟩ := execing_eq_some.mp hp
    obtain ⟨hok, hno⟩ := h.image_ok hslot him
    exact hf p im hslot him hok hno (h.exact_exec hslot him)

theorem Inv.setImagePost (h : Inv R s) {p : Proc} (hslot : s.slot i = .live p) (im : Image)
    {m : Space} {k : Kmem}
    (hpost : Post R (p.besideImage (s.rest {i})) s.kmem (pgroundup im.sz) m k im.pt)
    (hno : m.NoCow) :
    Inv R (s.setSlot i (.live { p with image := some im }) k) ∧
      (s.setSlot i (.live { p with image := some im }) k).view =
        onProc s.view i fun p => { p with image := some ⟨m, im.sz, im.stack⟩ } := by
  have hset := h.setImage hslot (some im) hpost.exact hpost.keeps ?_
  · refine ⟨hset.1, hset.2.trans ?_⟩
    simp only [Option.map_some, Image.view, hpost.space]
  · intro im' h'
    obtain rfl := Option.some.inj h'
    refine ⟨hpost.ok, ?_⟩
    rw [hpost.space]
    exact hno

section
variable {e : Event I} {p : Proc} {im : Image} {f : ImageView → Option ImageView}
  {m : Space} {k : Kmem}

theorem Inv.image_step (h : Inv R s) (ok : Bool) (hslot : s.slot i = .live p)
    (him : p.image = some im) (im' : Image)
    (hpost : Post R (p.besideImage (s.rest {i})) s.kmem (pgroundup im'.sz) m k im'.pt)
    (hno : m.NoCow) (he : spaceStep (fun m => m.shareTo 0) ok s.view e = onImage s.view i f)
    (hf : f (im.view s.kmem) = some ⟨m, im'.sz, im'.stack⟩)
    (hoom : k.oom = false → s.kmem.oom = false ∧ ok = true) :
    StepPost R s e (s.setSlot i (.live { p with image := some im' }) k) := by
  obtain ⟨hinv, hview⟩ := h.setImagePost hslot im' hpost hno
  exact ⟨hinv, 0, ok, hview.trans ((onImage_eq hslot him f hf).symm.trans he.symm), hoom⟩

theorem execBad_step (ok : Bool) (h : Inv R s) (hslot : s.slot i = .live p)
    (him : p.image = some im) {pt : PageTable} {sz : ℕ}
    (hpost : Post R (p.besideImage (s.rest {i})) s.kmem (pgroundup sz) m k pt)
    (he : spaceStep (fun m => m.shareTo 0) ok s.view e = onImage s.view i f)
    (hf : f (im.view s.kmem) = none) (hoom : k.oom = false → s.kmem.oom = false ∧ ok = true) :
    (execBad R i p pt sz k s).Ensures (Expected R) (StepPost R s e) := by
  refine ensures_bind ((procFreepagetable_ensures hpost.ok hpost.exact).mono ?_)
  rintro k' ⟨hE, hkeeps, hsame⟩
  have hE' : KOk R k' (imageShares none + p.besideImage (s.rest {i})) := by
    rw [imageShares, zero_add]
    exact hE
  obtain ⟨hinv, hview⟩ := h.setImage hslot none hE' (hpost.keeps.trans hkeeps) (by simp)
  refine ⟨hinv, 0, ok, hview.trans ((onImage_eq hslot him f hf).symm.trans he.symm), fun ho => ?_⟩
  exact hoom (hsame.symm.trans ho)

end

theorem execBegin_step (h : Inv R s) (i : I) :
    (step R s (.execBegin i)).Ensures (Expected R) (StepPost R s (.execBegin i)) := by
  rw [step]
  refine withProc_ensures fun p hslot him => ?_
  have hE := h.exact_image hslot
  rw [him, imageShares, zero_add] at hE
  have hsame : onProc s.view i (fun p => { p with image := none }) = s.view := by
    have hview : s.view i = .live (p.view s.kmem) := by
      rw [State.view, hslot]
      rfl
    rw [onProc_live hslot]
    have hp : { p.view s.kmem with image := none } = p.view s.kmem := by simp [Proc.view, him]
    rw [hp, ← hview, Function.update_eq_self]
  refine ensures_bind ((procPagetable_ensures hE).mono ?_)
  rintro ⟨pt, k⟩ ⟨hoom, hnone, hsome⟩
  cases pt with
  | none =>
    obtain ⟨hE', hkeeps⟩ := hnone rfl
    have hE'' : KOk R k (imageShares none + p.besideImage (s.rest {i})) := by
      rw [imageShares, zero_add]
      exact hE'
    obtain ⟨hinv, hview⟩ := h.setImage hslot none hE'' hkeeps (by simp)
    have hs : s.setSlot i (.live { p with image := none }) k = { s with kmem := k } := by
      have hp : { p with image := none } = p := by rw [← him]
      rw [hp, State.setSlot, ← hslot, Function.update_eq_self]
    rw [hs] at hinv hview
    refine ⟨hinv, 0, false, hview, fun ho => ?_⟩
    exact Bool.noConfusion (hoom ho).2
  | some pt =>
    have hpost := hsome pt rfl
    rw [← pgroundup_zero] at hpost
    obtain ⟨hinv, hview⟩ := h.setImagePost hslot ⟨pt, 0, false⟩ hpost .empty
    exact ⟨hinv, 0, true, hview, fun ho => ⟨(hoom ho).1, rfl⟩⟩

theorem execSegment_step (h : Inv R s) (i : I) (newsz : ℕ) (xperm : Xperm) :
    (step R s (.execSegment i newsz xperm)).Ensures (Expected R)
      (StepPost R s (.execSegment i newsz xperm)) := by
  rw [step]
  refine h.withImage_ensures fun p im hslot him hok hno hE => ?_
  split
  · trivial
  refine ensures_bind ((uvmalloc_ensures hok hE).mono ?_)
  rintro ⟨sz, k, pt⟩ ⟨hcases, hoom⟩
  dsimp only
  rcases hcases with ⟨hlt, hr⟩ | ⟨hle, hsz, hpost⟩ | ⟨hle, hsz, hfail, hpost⟩
  · obtain ⟨rfl, rfl, rfl⟩ : sz = im.sz ∧ k = s.kmem ∧ pt = im.pt := by simpa using hr
    rw [if_neg (by omega)]
    exact h.image_step true hslot him im (.refl hok hE) hno rfl (if_pos hlt) fun ho => ⟨ho, rfl⟩
  · obtain rfl : sz = newsz := hsz
    have hnot : ¬ sz < (im.view s.kmem).sz := not_lt.mpr hle
    split
    · next hz =>
      -- A segment that ends at 0 counts as a failure.
      subst hz
      have hz : im.sz = 0 := Nat.le_zero.mp hle
      rw [← hz] at hpost
      refine execBad_step true h hslot him hpost rfl ?_ fun ho => ⟨hoom ho, rfl⟩
      simp [ImageView.segment, hnot]
    · next hz =>
      refine h.image_step true hslot him { im with pt := pt, sz := sz } hpost
        (hno.grow _ _ rfl) rfl ?_ fun ho => ⟨hoom ho, rfl⟩
      rw [ImageView.segment, if_neg hnot]
      simp only [hz, ne_eq, not_false_eq_true, decide_true, Bool.and_self, if_true]
      rfl
  · obtain rfl : sz = 0 := hsz
    rw [if_pos rfl]
    refine execBad_step false h hslot him hpost rfl ?_ fun ho => ?_
    · have hnot : ¬ newsz < (im.view s.kmem).sz := not_lt.mpr hle
      simp [ImageView.segment, hnot]
    · exact absurd (hfail.symm.trans ho) (by simp)

theorem execLoad_step (h : Inv R s) (i : I) (v : ℕ) (src : List UInt8) :
    (step R s (.execLoad i v src)).Ensures (Expected R) (StepPost R s (.execLoad i v src)) := by
  rw [step]
  refine h.withImage_ensures fun p im hslot him hok hno hE => ?_
  split
  · trivial
  unfold execLoad
  cases hw : walkaddr im.pt v with
  | none => exact expected_panic R (by decide)
  | some pa =>
    rw [hok.walkaddr_eq hE] at hw
    cases hp : im.pt.space s.kmem v with
    | none => simp [hp] at hw
    | some q =>
      rw [hp] at hw
      obtain ⟨hlt, hvalid, rfl⟩ := space_eq_some.mp hp
      simp only [Option.ite_none_right_eq_some, Option.some.injEq] at hw
      obtain ⟨-, rfl⟩ := hw
      have hpost := write_post hok hE ((hok.valid_iff v hlt).mp hvalid) (hno v _ hp) 0 src
      have hstep : StepPost R s (.execLoad i v src) _ := h.image_step true hslot him im hpost
        (hno.write _ _ _) rfl rfl fun ho => ⟨ho, rfl⟩
      have hs : s.setSlot i (.live { p with image := some im })
          (s.kmem.write (im.pt.pte v).ppn 0 src) =
          { s with kmem := s.kmem.write (im.pt.pte v).ppn 0 src } := by
        have hp : { p with image := some im } = p := by rw [← him]
        rw [hp, State.setSlot, ← hslot, Function.update_eq_self]
      rwa [hs] at hstep

theorem execStack_step (h : Inv R s) (i : I) :
    (step R s (.execStack i)).Ensures (Expected R) (StepPost R s (.execStack i)) := by
  rw [step]
  refine h.withImage_ensures fun p im hslot him hok hno hE => ?_
  split
  · trivial
  have hok' : PtOk im.pt (pgroundup (pgroundup im.sz * PGSIZE)) := by
    rw [pgroundup_mul]
    exact hok
  have hnew : pgroundup im.sz * PGSIZE + 2 * PGSIZE = (pgroundup im.sz + 2) * PGSIZE := by ring
  have hpos : (pgroundup im.sz + 2) * PGSIZE ≠ 0 := by simp [PGSIZE]
  unfold execStack
  refine ensures_bind ((uvmalloc_ensures hok' hE).mono ?_)
  rintro ⟨sz1, k, pt⟩ ⟨hcases, hoom⟩
  rw [hnew] at hcases
  rcases hcases with ⟨hlt, -⟩ | ⟨hle, hsz, hpost⟩ | ⟨hle, hsz, hfail, hpost⟩
  · rw [← hnew] at hlt
    omega
  · obtain rfl : sz1 = _ := hsz
    dsimp only
    rw [if_neg hpos, Nat.mul_div_cancel _ (by simp [PGSIZE] : 0 < PGSIZE)]
    rw [pgroundup_mul, pgroundup_mul] at hpost
    refine ensures_bind ((uvmclear_ensures hpost.ok hpost.exact (by omega)).mono ?_)
    intro pt' hpost'
    have hpost'' := hpost'.after hpost.keeps
    rw [show pt.space k = _ from hpost.space] at hpost''
    have hsub : pgroundup im.sz + 2 - 2 = pgroundup im.sz := by omega
    have hsub' : pgroundup im.sz + 2 - pgroundup im.sz = 2 := by omega
    rw [hsub, hsub'] at hpost''
    rw [← pgroundup_mul (pgroundup im.sz + 2)] at hpost''
    exact h.image_step true hslot him ⟨pt', (pgroundup im.sz + 2) * PGSIZE, true⟩ hpost''
      ((hno.grow _ _ rfl).setFlags _ fun _ => rfl) rfl rfl fun ho => ⟨hoom ho, rfl⟩
  · obtain rfl : sz1 = 0 := hsz
    refine execBad_step false h hslot him hpost rfl rfl fun ho => ?_
    exact absurd (hfail.symm.trans ho) (by simp)

theorem execArg_step (h : Inv R s) (i : I) (sp : ℕ) (src : List UInt8) :
    (step R s (.execArg i sp src)).Ensures (Expected R) (StepPost R s (.execArg i sp src)) := by
  rw [step]
  refine h.withImage_ensures fun p im hslot him hok hno hE => ?_
  split
  swap
  · trivial
  unfold execArg
  split
  · next hsp =>
    exact execBad_step true h hslot him (.refl hok hE) rfl (if_pos hsp) fun ho => ⟨ho, rfl⟩
  next hsp =>
  refine ensures_bind ((copyout_ensures hok hE).mono ?_)
  rintro ⟨ok, k, pt⟩ ⟨hoom, hr, hpost⟩
  obtain rfl : ok = _ := hr
  have harg : ImageView.arg sp src (im.view s.kmem) =
      if ((im.pt.space s.kmem).copyout sp src).1 then
        some { im.view s.kmem with space := ((im.pt.space s.kmem).copyout sp src).2 }
      else none := by
    have hsp' : ¬ sp < (im.view s.kmem).sz - PGSIZE := hsp
    rw [ImageView.arg, if_neg hsp']
    rcases hc : (im.pt.space s.kmem).copyout sp src with ⟨b, m⟩
    rw [show (im.view s.kmem).space.copyout sp src = (b, m) from hc]
    cases b <;> rfl
  cases hb : ((im.pt.space s.kmem).copyout sp src).1 with
  | true =>
    rw [hb] at harg
    exact h.image_step true hslot him { im with pt := pt } hpost
      (Space.NoCow.copyoutLoop _ hno) rfl harg fun ho => ⟨hoom.symm.trans ho, rfl⟩
  | false =>
    rw [hb] at harg
    exact execBad_step true h hslot him hpost rfl harg fun ho => ⟨hoom.symm.trans ho, rfl⟩

theorem execSwitch_step (h : Inv R s) (i : I) :
    (step R s (.execSwitch i)).Ensures (Expected R) (StepPost R s (.execSwitch i)) := by
  rw [step]
  refine h.withImage_ensures fun p im hslot him hok hno hE => ?_
  split
  swap
  · trivial
  refine ensures_bind ((procFreepagetable_ensures (h.live_ok hslot)
    (h.exact_live hslot)).mono ?_)
  rintro k ⟨hE, hkeeps, hoom⟩
  have hset := h.setSlot
    (x := .live { p with pt := im.pt, sz := im.sz, image := none }) (k := k) ?_
    (hkeeps.mono (p.le_beside _)) ⟨hok, by simp⟩
  · refine ⟨hset.1, 0, true, hset.2.trans ?_, fun ho => ⟨?_, rfl⟩⟩
    · have hle : im.pt.shares ≤ p.beside (s.rest {i}) := by
        rw [Proc.beside, him]
        exact (Multiset.le_add_right _ _).trans (Multiset.le_cons_self _ _)
      simp only [spaceStep, onProc_live hslot, Slot.view, Proc.view, him, Option.map_some,
        Option.map_none, Image.view, space_keeps hkeeps hle]
    · rw [← hoom]
      exact ho
  · simp only [Slot.shares, Proc.shares, imageShares, add_zero, Multiset.cons_add]
    rw [Proc.beside, him] at hE
    exact hE

theorem execAbort_step (h : Inv R s) (i : I) :
    (step R s (.execAbort i)).Ensures (Expected R) (StepPost R s (.execAbort i)) := by
  rw [step]
  refine h.withImage_ensures fun p im hslot him hok hno hE => ?_
  exact execBad_step true h hslot him (.refl hok hE) rfl rfl fun ho => ⟨ho, rfl⟩

theorem step_ensures (h : Inv R s) (e : Event I) :
    (step R s e).Ensures (Expected R) (StepPost R s e) := by
  cases e with
  | kalloc => exact kalloc_step h
  | kfree pg => exact kfree_step h pg
  | allocproc i => exact allocproc_step h i
  | fork i j => exact fork_step h i j
  | growproc i n => exact growproc_step h i n
  | store i va b => exact store_step h i va b
  | copyout i dstva src => exact copyout_step h i dstva src
  | freeproc i => exact freeproc_step h i
  | execBegin i => exact execBegin_step h i
  | execSegment i newsz xperm => exact execSegment_step h i newsz xperm
  | execLoad i v src => exact execLoad_step h i v src
  | execStack i => exact execStack_step h i
  | execArg i sp src => exact execArg_step h i sp src
  | execSwitch i => exact execSwitch_step h i
  | execAbort i => exact execAbort_step h i

end
end Xv6.Vm
