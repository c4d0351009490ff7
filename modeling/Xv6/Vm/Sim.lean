import Xv6.Vm.View

/-! # This kernel against one that copies at once

Both kernels take the same events. A relation between address spaces that the single operations
keep is kept by every step, where this kernel marks pages in `fork` and the other one copies them.
-/

namespace Xv6.Vm
set_option autoImplicit false
open Function (update update_eq_self)

/-- A relation that every operation of the kernel keeps, stores and `copyout` of a running process
apart. -/
structure SpaceSim (Rel : Space → Space → Prop) : Prop where
  empty : Rel .empty .empty
  shareTo : ∀ {m q : Space} (n : ℕ), Rel m q → Rel (m.shareTo n) q
  grow : ∀ {m q : Space} (a n : ℕ) (xperm : Xperm), Rel m q →
    Rel (m.grow a n (userPerm xperm)) (q.grow a n (userPerm xperm))
  truncate : ∀ {m q : Space} (n : ℕ), Rel m q → Rel (m.truncate n) (q.truncate n)
  write : ∀ {m q : Space} (v off : ℕ) (src : List UInt8), Rel m q →
    Rel (m.write v off src) (q.write v off src)
  clear : ∀ {m q : Space} (v : ℕ), Rel m q → Rel (m.setFlags v clearUser) (q.setFlags v clearUser)
  copyout : ∀ {m : Space} (dstva : ℕ) (src : List UInt8), Rel m m →
    Rel (m.copyout dstva src).2 (m.copyout dstva src).2

def ImageRel (Rel : Space → Space → Prop) (x y : Option ImageView) : Prop :=
  x = y ∧ ∀ im, x = some im → Rel im.space im.space

def ProcRel (Rel : Space → Space → Prop) (p q : ProcView) : Prop :=
  Rel p.space q.space ∧ p.sz = q.sz ∧ ImageRel Rel p.image q.image

def SlotRel (Rel : Space → Space → Prop) : SlotView → SlotView → Prop
  | .unused, .unused => True
  | .fresh, .fresh => True
  | .live p, .live q => ProcRel Rel p q
  | _, _ => False

section
variable {I : Type} [DecidableEq I] {Rel : Space → Space → Prop} {V W : I → SlotView}

def ViewRel (Rel : Space → Space → Prop) (V W : I → SlotView) : Prop :=
  ∀ i, SlotRel Rel (V i) (W i)

omit [DecidableEq I] in
theorem ViewRel.live (h : ViewRel Rel V W) {i : I} {p : ProcView} (hp : V i = .live p) :
    ∃ q, W i = .live q ∧ ProcRel Rel p q := by
  have hi := h i
  rw [hp] at hi
  cases hq : W i with
  | unused => simp [hq, SlotRel] at hi
  | fresh => simp [hq, SlotRel] at hi
  | live q =>
    rw [hq] at hi
    exact ⟨q, rfl, hi⟩

omit [DecidableEq I] in
theorem ViewRel.not_live (h : ViewRel Rel V W) {i : I} (hp : ∀ p, V i ≠ .live p) (q : ProcView) :
    W i ≠ .live q := by
  have hi := h i
  intro hq
  rw [hq] at hi
  cases hV : V i with
  | unused => simp [hV, SlotRel] at hi
  | fresh => simp [hV, SlotRel] at hi
  | live p => exact hp p hV

theorem ViewRel.update (h : ViewRel Rel V W) (i : I) {x y : SlotView} (hxy : SlotRel Rel x y) :
    ViewRel Rel (update V i x) (update W i y) := by
  intro j
  by_cases hj : j = i
  · subst hj
    simpa using hxy
  · simpa [hj] using h j

theorem ViewRel.onProc (h : ViewRel Rel V W) (i : I) {f g : ProcView → ProcView}
    (hfg : ∀ p q, V i = .live p → W i = .live q → ProcRel Rel p q → ProcRel Rel (f p) (g q)) :
    ViewRel Rel (onProc V i f) (onProc W i g) := by
  by_cases hp : ∃ p, V i = .live p
  · obtain ⟨p, hp⟩ := hp
    obtain ⟨q, hq, hpq⟩ := h.live hp
    simp only [Xv6.Vm.onProc, hp, hq]
    exact h.update i (hfg p q hp hq hpq)
  · have hV : Xv6.Vm.onProc V i f = V := by
      unfold Xv6.Vm.onProc
      split
      · next p hp' => exact absurd ⟨p, hp'⟩ hp
      · rfl
    have hW : Xv6.Vm.onProc W i g = W := by
      unfold Xv6.Vm.onProc
      split
      · next q hq => exact absurd hq (h.not_live (fun p hp' => hp ⟨p, hp'⟩) q)
      · rfl
    rw [hV, hW]
    exact h

theorem ImageRel.bind {x y : Option ImageView} (h : ImageRel Rel x y)
    {f : ImageView → Option ImageView}
    (hf : ∀ im im', Rel im.space im.space → f im = some im' → Rel im'.space im'.space) :
    ImageRel Rel (x.bind f) (y.bind f) := by
  obtain ⟨rfl, hx⟩ := h
  refine ⟨rfl, ?_⟩
  intro im' him'
  obtain ⟨im, him, hf'⟩ := Option.bind_eq_some_iff.mp him'
  exact hf im im' (hx im him) hf'

theorem ViewRel.onImage (h : ViewRel Rel V W) (i : I) {f : ImageView → Option ImageView}
    (hf : ∀ im im', Rel im.space im.space → f im = some im' → Rel im'.space im'.space) :
    ViewRel Rel (onImage V i f) (onImage W i f) :=
  h.onProc i fun _ _ _ _ ⟨hs, hsz, him⟩ => ⟨hs, hsz, him.bind hf⟩

theorem ProcRel.growproc (hR : SpaceSim Rel) {p q : ProcView} (h : ProcRel Rel p q) (ok : Bool)
    (n : ℤ) : ProcRel Rel (p.growproc ok n) (q.growproc ok n) := by
  obtain ⟨hs, hsz, him⟩ := h
  unfold ProcView.growproc
  dsimp only
  rw [hsz]
  split
  · split
    · exact ⟨hR.grow _ _ _ hs, rfl, him⟩
    · exact ⟨hs, hsz, him⟩
  · split
    · exact ⟨hR.truncate _ hs, rfl, him⟩
    · exact ⟨hs, hsz, him⟩

theorem ViewRel.step (hR : SpaceSim Rel) (h : ViewRel Rel V W) (n : ℕ) (ok : Bool) (e : Event I)
    (hstore : ∀ i va b, e = .store i va b → ∀ p q, V i = .live p → W i = .live q →
      Rel p.space q.space → Rel (p.space.store va b) (q.space.store va b))
    (hcopyout : ∀ i dstva src, e = .copyout i dstva src → ∀ p q, V i = .live p → W i = .live q →
      Rel p.space q.space → Rel (p.space.copyout dstva src).2 (q.space.copyout dstva src).2) :
    ViewRel Rel (spaceStep (fun m => m.shareTo n) ok V e) (spaceStep id ok W e) := by
  cases e with
  | kalloc => exact h
  | kfree pg => exact h
  | allocproc i =>
    simp only [spaceStep]
    split
    · exact h.update i trivial
    · exact h
  | fork i j =>
    simp only [spaceStep]
    by_cases hp : ∃ p, V i = .live p
    · obtain ⟨p, hp⟩ := hp
      obtain ⟨q, hq, hs, hsz, him⟩ := h.live hp
      rw [hp, hq]
      have hmark : ProcRel Rel { p with space := p.space.shareTo n } q :=
        ⟨hR.shareTo n hs, hsz, him⟩
      refine ViewRel.update (h.onProc i ?_) j ?_
      · rintro p' q' hp' hq' ⟨hs', hsz', him'⟩
        exact ⟨hR.shareTo n hs', hsz', him'⟩
      · split
        · exact hmark
        · trivial
    · have hq := h.not_live fun p hp' => hp ⟨p, hp'⟩
      split
      · next p hp' => exact absurd ⟨p, hp'⟩ hp
      · simpa only [hq] using h
  | growproc i k => exact h.onProc i fun p q _ _ hpq => hpq.growproc hR ok k
  | store i va b =>
    refine h.onProc i ?_
    rintro p q hp hq ⟨hs, hsz, him⟩
    exact ⟨hstore i va b rfl p q hp hq hs, hsz, him⟩
  | copyout i dstva src =>
    refine h.onProc i ?_
    rintro p q hp hq ⟨hs, hsz, him⟩
    exact ⟨hcopyout i dstva src rfl p q hp hq hs, hsz, him⟩
  | freeproc i => exact h.update i trivial
  | execBegin i =>
    refine h.onProc i ?_
    rintro p q hp hq ⟨hs, hsz, -⟩
    refine ⟨hs, hsz, rfl, ?_⟩
    intro im him
    split at him
    · cases him
      exact hR.empty
    · cases him
  | execSegment i newsz xperm =>
    refine h.onImage i fun im im' hs him' => ?_
    simp only [ImageView.segment] at him'
    split at him'
    · obtain rfl := Option.some.inj him'
      exact hs
    · split at him'
      · obtain rfl := Option.some.inj him'
        exact hR.grow _ _ _ hs
      · cases him'
  | execLoad i v src =>
    refine h.onImage i fun im im' hs him' => ?_
    obtain rfl := Option.some.inj him'
    exact hR.write v 0 src hs
  | execStack i =>
    refine h.onImage i fun im im' hs him' => ?_
    simp only [ImageView.addStack] at him'
    split at him'
    · obtain rfl := Option.some.inj him'
      exact hR.clear _ (hR.grow _ _ _ hs)
    · cases him'
  | execArg i sp src =>
    refine h.onImage i fun im im' hs him' => ?_
    simp only [ImageView.arg] at him'
    split at him'
    · cases him'
    · split at him'
      · next m hm =>
        obtain rfl := Option.some.inj him'
        have hc := hR.copyout sp src hs
        rw [hm] at hc
        exact hc
      · cases him'
  | execSwitch i =>
    refine h.onProc i ?_
    rintro p q hp hq ⟨hs, hsz, heq, him⟩
    rw [← heq]
    cases hpi : p.image with
    | none => exact ⟨hs, hsz, heq, him⟩
    | some im => exact ⟨him im hpi, rfl, rfl, by simp⟩
  | execAbort i => exact h.onImage i fun _ _ _ him' => by cases him'

end

/-! ## Both kernels on the same events -/

section
variable {I : Type} [DecidableEq I]

/-- This kernel together with one that copies at once; `ok` tells from the address spaces before and
after a step whether the other one has memory for it too. -/
def paired (R : Ram) (I : Type) [DecidableEq I]
    (ok : (I → SlotView) → (I → SlotView) → Event I → Bool) :
    TransSys (State I × (I → SlotView)) (Event I) where
  init := fun x => Booted R x.1 ∧ x.2 = x.1.view
  step := fun x e y => step R x.1 e = .ok y.1 ∧
    y.2 = spaceStep id (ok x.1.view y.1.view e) x.2 e

/-- The pair of states after booting and the events `es`, as far as `C` allows them. -/
def pairedFrom (R : Ram) (ok : (I → SlotView) → (I → SlotView) → Event I → Bool)
    (C : (I → SlotView) → Event I → Bool) (i : I) (es : List (Event I)) :
    Option (State I × (I → SlotView)) :=
  (runFrom R i [] []).bind fun s =>
    TransSys.exec (fun x e => if C x.2 e then (step R x.1 e).result.map fun s' =>
      (s', spaceStep id (ok x.1.view s'.view e) x.2 e) else none) (s, s.view) es

theorem reachable_of_pairedFrom {R : Ram}
    {ok : (I → SlotView) → (I → SlotView) → Event I → Bool} {C : (I → SlotView) → Event I → Bool}
    {i : I} {es : List (Event I)} {y : State I × (I → SlotView)}
    (h : pairedFrom R ok C i es = some y) {D : State I × (I → SlotView) → Event I → Prop}
    (hD : ∀ x e, C x.2 e = true → D x e) : ((paired R I ok).restrict D).Reachable y := by
  obtain ⟨s, hs, hy⟩ := Option.bind_eq_some_iff.mp h
  obtain ⟨s0, hboot, hrun⟩ := run_of_runFrom hs
  cases hrun with
  | nil =>
    have hinit : ((paired R I ok).restrict D).Reachable (s, s.view) := .init ⟨hboot, rfl⟩
    refine hinit.run (TransSys.Run.of_exec ?_ hy)
    rintro x e x' hx
    split at hx
    · next hC =>
      obtain ⟨s', hs', rfl⟩ := Option.map_eq_some_iff.mp hx
      exact ⟨hD x e hC, Outcome.result_eq_some.mp hs', rfl⟩
    · cases hx

end

/-! ## Relations between pages -/

def UPage.store (off : ℕ) (b : UInt8) (p : UPage) : UPage :=
  if p.flags.u && p.flags.w then { p with data := p.data.overwrite off [b] }
  else if p.flags.cow then ⟨p.data.overwrite off [b], { cowPerm with v := true }⟩
  else p

def UPage.copyout (off : ℕ) (src : List UInt8) (p : UPage) : UPage :=
  if p.flags.cow then ⟨p.data.overwrite off src, { cowPerm with v := true }⟩
  else { p with data := p.data.overwrite off src }

theorem Space.store_eq (m : Space) (va : ℕ) (b : UInt8) : m.store va b =
    update m (va / PGSIZE) ((m (va / PGSIZE)).map (UPage.store (va % PGSIZE) b)) := by
  cases hp : m (va / PGSIZE) with
  | none =>
    have hsame : m.store va b = m := by simp [Space.store, hp]
    rw [hsame, Option.map_none, ← hp, update_eq_self]
  | some p =>
    simp only [Space.store, hp, Option.map_some, UPage.store]
    split
    · simp [Space.write, hp]
    · split
      · simp [Space.write, Space.setFlags, hp, Space.cowFlags]
      · rw [← hp, update_eq_self]

theorem Space.copyoutPage_eq (m : Space) (v off : ℕ) (src : List UInt8) :
    m.copyoutPage v off src = (m v).bind fun p =>
      if p.flags.u then some (update m v (some (p.copyout off src))) else none := by
  unfold Space.copyoutPage
  cases hp : m v with
  | none => rfl
  | some p =>
    simp only [Option.bind_some, UPage.copyout]
    split
    · split
      · simp [Space.write, Space.setFlags, hp, Space.cowFlags]
      · simp [Space.write, hp]
    · rfl

/-- Two address spaces map the same pages, and the pages are related. -/
def Pointwise (rel : UPage → UPage → Prop) (m q : Space) : Prop := ∀ v, Option.Rel rel (m v) (q v)

/-- What makes a relation between pages one that the kernel keeps. -/
structure PageSim (rel : UPage → UPage → Prop) : Prop where
  share : ∀ {p q : UPage}, rel p q → rel { p with flags := p.flags.share } q
  fresh : ∀ xperm : Xperm, rel ⟨ByteBlock.fill PGSIZE 0, { userPerm xperm with v := true }⟩
    ⟨ByteBlock.fill PGSIZE 0, { userPerm xperm with v := true }⟩
  first : ∀ data : Page, rel ⟨data, { cowPerm with v := true }⟩ ⟨data, { cowPerm with v := true }⟩
  write : ∀ {p q : UPage} (off : ℕ) (src : List UInt8), rel p q →
    rel { p with data := p.data.overwrite off src } { q with data := q.data.overwrite off src }
  clear : ∀ {p q : UPage}, rel p q →
    rel { p with flags := clearUser p.flags } { q with flags := clearUser q.flags }
  copyout : ∀ {p : UPage} (off : ℕ) (src : List UInt8), rel p p →
    rel (p.copyout off src) (p.copyout off src)

section
variable {rel : UPage → UPage → Prop} {m q : Space}

theorem Pointwise.update (h : Pointwise rel m q) (v : ℕ) {x y : Option UPage}
    (hxy : Option.Rel rel x y) : Pointwise rel (update m v x) (update q v y) := by
  intro w
  by_cases hw : w = v
  · subst hw
    simpa using hxy
  · simpa [hw] using h w

theorem Pointwise.map (h : Pointwise rel m q) (v : ℕ) {f g : UPage → UPage}
    (hfg : ∀ p p', m v = some p → q v = some p' → rel p p' → rel (f p) (g p')) :
    Pointwise rel (Function.update m v ((m v).map f)) (Function.update q v ((q v).map g)) := by
  refine h.update v ?_
  have hv := h v
  generalize hx : m v = x at hv
  generalize hy : q v = y at hv
  cases hv with
  | none => exact .none
  | some hpq => exact .some (hfg _ _ hx hy hpq)

theorem Pointwise.copyoutPage (h : Pointwise rel m q) (v off : ℕ) (src : List UInt8)
    (hu : ∀ p p', m v = some p → q v = some p' → p.flags.u = p'.flags.u ∧
      rel (p.copyout off src) (p'.copyout off src)) :
    (m.copyoutPage v off src = none ↔ q.copyoutPage v off src = none) ∧
    ∀ m' q', m.copyoutPage v off src = some m' → q.copyoutPage v off src = some q' →
      Pointwise rel m' q' ∧ ∀ w, w ≠ v → m' w = m w ∧ q' w = q w := by
  rw [Space.copyoutPage_eq, Space.copyoutPage_eq]
  have hv := h v
  generalize hx : m v = x at hv
  generalize hy : q v = y at hv
  cases hv with
  | none => simp
  | some hpq =>
    obtain ⟨hu, hrel⟩ := hu _ _ hx hy
    simp only [Option.bind_some]
    rw [hu]
    split
    · refine ⟨by simp, fun m' q' hm hq => ?_⟩
      cases hm
      cases hq
      refine ⟨h.update v (.some hrel), fun w hw => ?_⟩
      simp [hw]
    · simp

theorem touched_of_next {va len v : ℕ} (hpos : 0 < PGSIZE) (hle : va / PGSIZE + 1 ≤ v)
    (hlt : v * PGSIZE < (va / PGSIZE + 1) * PGSIZE + (len - min (PGSIZE - va % PGSIZE) len)) :
    v * PGSIZE < va + len := by
  have hmod := Nat.mod_lt va hpos
  have hdiv := Nat.div_add_mod va PGSIZE
  have hstep : (va / PGSIZE + 1) * PGSIZE ≤ v * PGSIZE := Nat.mul_le_mul_right _ hle
  rw [Nat.mul_comm] at hdiv
  rw [Nat.add_mul, Nat.one_mul] at hlt hstep
  by_cases hfit : PGSIZE - va % PGSIZE ≤ len
  · rw [Nat.min_eq_left hfit] at hlt
    omega
  · -- All bytes fit into this page, so no later page is touched.
    rw [Nat.min_eq_right (by omega), Nat.sub_self, Nat.add_zero] at hlt
    omega

theorem Pointwise.copyoutLoop (fuel : ℕ) {dstva : ℕ} {src : List UInt8} {m q : Space}
    (h : Pointwise rel m q) {P : UPage → UPage → Prop}
    (hP : ∀ v, dstva / PGSIZE ≤ v → v * PGSIZE < dstva + src.length →
      ∀ p p', m v = some p → q v = some p' → P p p')
    (hpage : ∀ p p' off src, rel p p' → P p p' → p.flags.u = p'.flags.u ∧
      rel (p.copyout off src) (p'.copyout off src)) :
    Pointwise rel (Space.copyoutLoop fuel dstva src m).2
      (Space.copyoutLoop fuel dstva src q).2 := by
  have hpos : 0 < PGSIZE := by simp [PGSIZE]
  induction fuel generalizing dstva src m q with
  | zero => exact h
  | succ fuel ih =>
    unfold Space.copyoutLoop
    split
    · exact h
    next hsrc =>
    have hlen : 0 < src.length := List.length_pos_iff.mpr hsrc
    dsimp only
    set n := min (PGSIZE - dstva % PGSIZE) src.length with hn
    have hhere : dstva / PGSIZE * PGSIZE < dstva + src.length := by
      have := Nat.div_mul_le_self dstva PGSIZE
      omega
    obtain ⟨hnone, hsome⟩ := h.copyoutPage (dstva / PGSIZE) (dstva % PGSIZE) (src.take n)
      fun p p' hp hp' => hpage p p' _ _ (by
        have hv := h (dstva / PGSIZE)
        rw [hp, hp'] at hv
        cases hv with
        | some hpq => exact hpq) (hP _ le_rfl hhere p p' hp hp')
    cases hm : m.copyoutPage (dstva / PGSIZE) (dstva % PGSIZE) (src.take n) with
    | none =>
      rw [hnone.mp hm]
      exact h
    | some m' =>
      cases hq : q.copyoutPage (dstva / PGSIZE) (dstva % PGSIZE) (src.take n) with
      | none =>
        rw [hnone.mpr hq] at hm
        cases hm
      | some q' =>
        obtain ⟨h', hsame⟩ := hsome m' q' hm hq
        refine ih h' fun v hle hlt p p' hp hp' => ?_
        rw [Nat.mul_div_cancel _ hpos] at hle
        have hne : v ≠ dstva / PGSIZE := by omega
        rw [(hsame v hne).1] at hp
        rw [(hsame v hne).2] at hp'
        rw [List.length_drop] at hlt
        exact hP v (by omega) (touched_of_next hpos hle hlt) p p' hp hp'

theorem PageSim.spaceSim (hs : PageSim rel) : SpaceSim (Pointwise rel) where
  empty := fun _ => .none
  shareTo := by
    intro m q n h v
    have hv := h v
    simp only [Space.shareTo, Space.share]
    split
    · generalize m v = x at hv ⊢
      generalize q v = y at hv ⊢
      cases hv with
      | none => exact .none
      | some hpq => exact .some (hs.share hpq)
    · exact hv
  grow := by
    intro m q a n xperm h v
    simp only [Space.grow]
    split
    · exact .some (hs.fresh xperm)
    · exact h v
  truncate := by
    intro m q n h v
    simp only [Space.truncate]
    split
    · exact h v
    · exact .none
  write := fun v off src h => h.map v fun _ _ _ _ hpq => hs.write off src hpq
  clear := fun v h => h.map v fun _ _ _ _ hpq => hs.clear hpq
  copyout := by
    intro m dstva src h
    refine Pointwise.copyoutLoop (P := fun p p' => p = p') src.length h ?_ ?_
    · intro v _ _ p p' hp hp'
      exact Option.some.inj (hp.symm.trans hp')
    · rintro p p' off src hpq rfl
      exact ⟨rfl, hs.copyout off src hpq⟩

end
end Xv6.Vm
