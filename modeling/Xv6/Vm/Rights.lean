import Xv6.Vm.Boot
import Xv6.Vm.Sim

/-! # Access rights

The rights that a page had when it was created are kept in a history variable: the address spaces
of a kernel that copies at once, whose entries never change their bits.
-/

namespace Xv6.Vm
set_option autoImplicit false

def SlotView.size : SlotView → ℕ
  | .live p => p.sz
  | _ => 0

def SlotView.hasImage : SlotView → Bool
  | .live p => p.image.isSome
  | _ => false

section
variable {I : Type} [DecidableEq I]

/-- Whether an operation that allocates memory has succeeded, by what can be seen afterwards. -/
def returned (V V' : I → SlotView) : Event I → Bool
  | .allocproc i =>
    match V' i with
    | .fresh => true
    | _ => false
  | .fork _ j =>
    match V' j with
    | .live _ => true
    | _ => false
  | .growproc i _ => decide ((V' i).size ≠ (V i).size)
  | .execBegin i | .execSegment i _ _ | .execStack i => (V' i).hasImage
  | _ => true

def history (R : Ram) (I : Type) [DecidableEq I] :
    TransSys (State I × (I → SlotView)) (Event I) :=
  paired R I returned

/-- A right that an entry grants was granted when its page was created. -/
def RightsKept (x : State I × (I → SlotView)) : Prop :=
  ∀ i p v, x.1.slot i = .live p → v < TRAPFRAME → (p.pt.pte v).flags.v = true →
    ∃ q, (x.2 i).space v = some q ∧
      ((p.pt.pte v).flags.w = true → q.flags.w = true) ∧
      ((p.pt.pte v).flags.x = true → q.flags.x = true) ∧
      ((p.pt.pte v).flags.u = true → q.flags.u = true)

/-- If page `v` of process `i` is marked copy-on-write, it was created with all rights. -/
def FullIfShared (x : State I × (I → SlotView)) (i : I) (v : ℕ) : Prop :=
  ∀ p q, (x.1.view i).space v = some p → p.flags.cow = true → (x.2 i).space v = some q →
    q.flags.w = true ∧ q.flags.x = true ∧ q.flags.u = true

/-- A page that a store or `copyout` has to copy was created with all rights. -/
def CopiesFull (x : State I × (I → SlotView)) : Event I → Prop
  | .store i va _ => FullIfShared x i (va / PGSIZE)
  | .copyout i dstva src =>
    ∀ v, dstva / PGSIZE ≤ v → v * PGSIZE < dstva + src.length → FullIfShared x i v
  | _ => True

/-! ## The return value decides the step -/

variable {V : I → SlotView}

theorem onProc_apply {i : I} {p : ProcView} {f : ProcView → ProcView} (h : V i = .live p) :
    onProc V i f i = .live (f p) := by
  simp [onProc, h]

theorem onProc_congr_live {i : I} {f g : ProcView → ProcView} (h : ∀ p, V i = .live p → f p = g p) :
    onProc V i f = onProc V i g := by
  unfold onProc
  split
  · next p hp => rw [h p hp]
  · rfl

theorem growproc_returned (ok : Bool) (n : ℤ) (p : ProcView) :
    p.growproc (decide ((p.growproc ok n).sz ≠ p.sz)) n = p.growproc ok n := by
  by_cases hn : n > 0
  · by_cases hle : p.sz ≤ addSize p.sz n
    · cases ok with
      | false => simp [ProcView.growproc, hn]
      | true =>
        by_cases heq : addSize p.sz n = p.sz
        · simp [ProcView.growproc, hn, heq, Space.grow_zero]
        · simp [ProcView.growproc, hn, hle, heq]
    · simp [ProcView.growproc, hn, hle]
  · simp [ProcView.growproc, hn]

theorem segment_returned (ok : Bool) (newsz : ℕ) (xperm : Xperm) (im : ImageView) :
    im.segment (im.segment ok newsz xperm).isSome newsz xperm = im.segment ok newsz xperm := by
  unfold ImageView.segment
  by_cases hlt : newsz < im.sz
  · simp [hlt]
  · cases ok with
    | false => simp [hlt]
    | true => by_cases hz : newsz = 0 <;> simp [hlt, hz]

theorem spaceStep_returned {mark : Space → Space} {ok : Bool} {V' : I → SlotView} {e : Event I}
    (h : V' = spaceStep mark ok V e) : V' = spaceStep mark (returned V V' e) V e := by
  cases e with
  | kalloc | kfree pg | store i va b | copyout i dstva src | freeproc i | execLoad i v src
  | execArg i sp src | execSwitch i | execAbort i => exact h
  | allocproc i =>
    cases ok with
    | true =>
      have hi : V' i = .fresh := by simp [h, spaceStep]
      simpa [returned, hi] using h
    | false =>
      have hV : V' = V := h
      simp only [returned, spaceStep, hV]
      cases hi : V i with
      | unused => rfl
      | live p => rfl
      | fresh =>
        simp only [if_true]
        rw [← hi, Function.update_eq_self]
  | fork i j =>
    cases hp : V i with
    | unused => simpa [spaceStep, hp] using h
    | fresh => simpa [spaceStep, hp] using h
    | live p =>
      have hj : V' j = if ok then .live { p with space := mark p.space } else .unused := by
        rw [h]
        simp [spaceStep, hp]
      cases ok with
      | true => simpa [returned, hj] using h
      | false => simpa [returned, hj] using h
  | growproc i n =>
    refine h.trans (onProc_congr_live fun p hp => ?_)
    have hi : V' i = .live (p.growproc ok n) := by
      rw [h]
      exact onProc_apply hp
    simp only [returned, hi, hp, SlotView.size]
    exact (growproc_returned ok n p).symm
  | execBegin i =>
    refine h.trans (onProc_congr_live fun p hp => ?_)
    have hi : V' i = .live { p with image := if ok then some ⟨.empty, 0, false⟩ else none } := by
      rw [h]
      exact onProc_apply hp
    simp only [returned, hi, SlotView.hasImage]
    cases ok <;> rfl
  | execSegment i newsz xperm =>
    refine h.trans (onProc_congr_live fun p hp => ?_)
    have hi : V' i = .live { p with image := p.image.bind (·.segment ok newsz xperm) } := by
      rw [h]
      exact onProc_apply hp
    simp only [returned, hi, SlotView.hasImage]
    cases him : p.image with
    | none => rfl
    | some im => simp only [Option.bind_some, segment_returned]
  | execStack i =>
    refine h.trans (onProc_congr_live fun p hp => ?_)
    have hi : V' i = .live { p with image := p.image.bind (·.addStack ok) } := by
      rw [h]
      exact onProc_apply hp
    simp only [returned, hi, SlotView.hasImage]
    cases him : p.image with
    | none => rfl
    | some im => cases ok <;> rfl

end

/-! ## Rights only shrink -/

/-- Page `p` has no right that `q` lacks; the user may access both or neither. -/
def Narrower (p q : UPage) : Prop :=
  (p.flags.w = true → q.flags.w = true) ∧ (p.flags.x = true → q.flags.x = true) ∧
    p.flags.u = q.flags.u ∧ q.flags.cow = false

theorem narrower_pageSim : PageSim Narrower where
  share := fun ⟨_, hx, hu, hc⟩ => ⟨by simp [Flags.share], hx, hu, hc⟩
  fresh := fun _ => ⟨id, id, rfl, rfl⟩
  first := fun _ => ⟨id, id, rfl, rfl⟩
  write := fun _ _ h => h
  clear := fun ⟨hw, hx, _, hc⟩ => ⟨hw, hx, rfl, hc⟩
  copyout := by
    rintro p off src ⟨-, -, -, hc⟩
    simp only [UPage.copyout, hc, Bool.false_eq_true, if_false]
    exact ⟨id, id, rfl, hc⟩

theorem Narrower.store {p q : UPage} (h : Narrower p q) (off : ℕ) (b : UInt8)
    (hfull : p.flags.cow = true → q.flags.w = true ∧ q.flags.x = true ∧ q.flags.u = true) :
    Narrower (p.store off b) (q.store off b) := by
  have hq : (q.store off b).flags = q.flags := by
    simp only [UPage.store, h.2.2.2, Bool.false_eq_true, if_false]
    split <;> rfl
  simp only [Narrower, hq]
  unfold UPage.store
  split
  · exact h
  · split
    · next hcow =>
      obtain ⟨hw, hx, hu⟩ := hfull hcow
      exact ⟨fun _ => hw, fun _ => hx, hu.symm, h.2.2.2⟩
    · exact h

theorem Narrower.copyout {p q : UPage} (h : Narrower p q) (off : ℕ) (src : List UInt8)
    (hfull : p.flags.cow = true → q.flags.w = true ∧ q.flags.x = true ∧ q.flags.u = true) :
    Narrower (p.copyout off src) (q.copyout off src) := by
  have hq : (q.copyout off src).flags = q.flags := by simp [UPage.copyout, h.2.2.2]
  simp only [Narrower, hq]
  unfold UPage.copyout
  split
  · next hcow =>
    obtain ⟨hw, hx, hu⟩ := hfull hcow
    exact ⟨fun _ => hw, fun _ => hx, hu.symm, h.2.2.2⟩
  · exact h

section
variable {I : Type} [Fintype I] [DecidableEq I] {R : Ram}

theorem boot_rel {rel : UPage → UPage → Prop} (hs : PageSim rel) {s : State I} (hb : Booted R s) :
    ViewRel (Pointwise rel) s.view s.view := by
  obtain ⟨-, -, i, initcode, hview⟩ := boot_inv hb
  rw [hview]
  have hfirst : Pointwise rel (firstSpace initcode) (firstSpace initcode) := by
    refine hs.spaceSim.write 0 0 initcode fun v => ?_
    simp only [Space.grow, Space.empty]
    split
    · exact .some (hs.first _)
    · exact .none
  have hnone : ViewRel (Pointwise rel) (fun _ : I => .unused) (fun _ => .unused) :=
    fun _ => trivial
  exact hnone.update i ⟨hfirst, rfl, rfl, by simp⟩

theorem history_step {x y : State I × (I → SlotView)} {e : Event I} (hinv : Inv R x.1)
    (hrel : ViewRel (Pointwise Narrower) x.1.view x.2) (hfull : CopiesFull x e)
    (hstep : (history R I).step x e y) :
    Inv R y.1 ∧ ViewRel (Pointwise Narrower) y.1.view y.2 := by
  obtain ⟨hs, hr⟩ := hstep
  obtain ⟨hinv', n, ok, hview, -⟩ := (step_ensures hinv e).of_ok hs
  refine ⟨hinv', ?_⟩
  have hview := spaceStep_returned hview
  rw [hview, hr]
  refine hrel.step narrower_pageSim.spaceSim n _ e ?_ ?_
  · rintro i va b rfl p q hp hq hpq
    rw [Space.store_eq, Space.store_eq]
    refine hpq.map _ fun p' q' hp' hq' h => h.store _ _ fun hcow => ?_
    refine hfull p' q' ?_ hcow ?_
    · rw [hp]
      exact hp'
    · rw [hq]
      exact hq'
  · rintro i dstva src rfl p q hp hq hpq
    refine hpq.copyoutLoop src.length (P := fun p' q' => p'.flags.cow = true →
      q'.flags.w = true ∧ q'.flags.x = true ∧ q'.flags.u = true) ?_ ?_
    · intro v hle hlt p' q' hp' hq' hcow
      refine hfull v hle hlt p' q' ?_ hcow ?_
      · rw [hp]
        exact hp'
      · rw [hq]
        exact hq'
    · intro p' q' off src' h hP
      exact ⟨h.2.2.1, h.copyout off src' hP⟩

/-- In every run whose stores and `copyout`s copy only pages that were created with all rights, no
entry grants a right that its page was not created with. -/
theorem rights_kept_of_copiesFull {x : State I × (I → SlotView)}
    (hx : ((history R I).restrict CopiesFull).Reachable x) : RightsKept x := by
  have h : Inv R x.1 ∧ ViewRel (Pointwise Narrower) x.1.view x.2 := by
    induction hx with
    | init h =>
      obtain ⟨hb, hr⟩ := h
      refine ⟨(boot_inv hb).1, ?_⟩
      rw [hr]
      exact boot_rel narrower_pageSim hb
    | step _ hs ih => exact history_step ih.1 ih.2 hs.1 hs.2
  intro i p v hslot hv hvalid
  have hview : x.1.view i = .live (p.view x.1.kmem) := by
    rw [State.view, hslot]
    rfl
  obtain ⟨q, hq, hspace, -⟩ := h.2.live hview
  have hpage : (p.view x.1.kmem).space v =
      some ⟨x.1.kmem.data (p.pt.pte v).ppn, (p.pt.pte v).flags⟩ :=
    space_eq_some.mpr ⟨hv, hvalid, rfl⟩
  have hrel := hspace v
  rw [hpage] at hrel
  generalize hy : q.space v = y at hrel
  cases hrel with
  | some hn =>
    obtain ⟨hw, hx', hu, -⟩ := hn
    refine ⟨_, ?_, hw, hx', fun h => hu ▸ h⟩
    rw [hq]
    exact hy

end

/-! ## A run that keeps the rights and one that does not -/

def copiesFullTest {I : Type} (V : I → SlotView) : Event I → Bool
  | .store i va _ => ((V i).space (va / PGSIZE)).all fun q => q.flags.w && q.flags.x && q.flags.u
  | .copyout _ _ _ => false
  | _ => true

theorem copiesFull_of_test {I : Type} (x : State I × (I → SlotView)) (e : Event I)
    (h : copiesFullTest x.2 e = true) : CopiesFull x e := by
  cases e with
  | store i va b =>
    intro p q _ _ hq
    simp only [copiesFullTest, hq, Option.all_some, Bool.and_eq_true] at h
    exact ⟨h.1.1, h.1.2, h.2⟩
  | copyout i dstva src => cases h
  | _ => trivial

theorem rights_kept_of_copiesFull_fork : ∃ x : State (Fin 2) × (Fin 2 → SlotView),
    ((history smallRam (Fin 2)).restrict CopiesFull).Reachable x ∧
    (x.1.kmem.refCount 34 = 1 ∧ ((x.1.view 1).space 0).isSome = true) ∧ RightsKept x := by
  have hrun : (pairedFrom smallRam returned copiesFullTest (0 : Fin 2)
      [.allocproc 1, .fork 0 1, .store 1 5 7]).map (fun x =>
        decide (x.1.kmem.refCount 34 = 1 ∧ ((x.1.view 1).space 0).isSome = true)) = some true := by
    decide +kernel
  obtain ⟨x, hx, hcheck⟩ := Option.map_eq_some_iff.mp hrun
  have hreach : ((history smallRam (Fin 2)).restrict CopiesFull).Reachable x :=
    reachable_of_pairedFrom hx copiesFull_of_test
  exact ⟨x, hreach, of_decide_eq_true hcheck, rights_kept_of_copiesFull hreach⟩

/-- `exec` makes a text page without write permission; after `fork`, a store of the child to the
page makes it writable. -/
def textWrite : List (Event (Fin 2)) :=
  [.execBegin 0, .execSegment 0 4096 ⟨false, true⟩, .execStack 0, .execSwitch 0, .allocproc 1,
    .fork 0 1, .store 1 5 7]

theorem text_page_becomes_writable :
    ¬ ∀ x : State (Fin 2) × (Fin 2 → SlotView), (history smallRam (Fin 2)).Reachable x →
      RightsKept x := by
  intro hall
  have hrun : (pairedFrom smallRam returned (fun _ _ => true) (0 : Fin 2) textWrite).map (fun x =>
      ((x.1.running 1).any fun p => (p.pt.pte 0).flags.v && (p.pt.pte 0).flags.w) &&
      ((x.2 1).space 0).all fun q => !q.flags.w) = some true := by
    decide +kernel
  obtain ⟨x, hx, hcheck⟩ := Option.map_eq_some_iff.mp hrun
  have hreach := reachable_of_pairedFrom hx fun _ _ _ => trivial
  have hkept := hall x hreach.unrestrict
  rw [Bool.and_eq_true] at hcheck
  obtain ⟨hpte, hmade⟩ := hcheck
  cases hp : x.1.running 1 with
  | none => simp [hp] at hpte
  | some p =>
    simp only [hp, Option.any_some, Bool.and_eq_true] at hpte
    have hslot := (running_eq_some.mp hp).1
    obtain ⟨q, hq, hw, -⟩ := hkept 1 p 0 hslot (by simp [TRAPFRAME, MAXVPN]) hpte.1
    simp [hq, hw hpte.2] at hmade

end Xv6.Vm
