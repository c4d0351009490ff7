import Xv6.Virtio.Flow

/-! # The invariant of the driver

One lemma for each thing the driver or the device does to the state.
-/

namespace Xv6.Virtio
open RingBuf (cell)
set_option autoImplicit false
open Function (update update_self update_of_ne update_eq_self comp_update)

section
variable {P B : Type}

structure Inv (s : State P B) (qa qu : List (Fin NUM)) : Prop where
  locks : Locks s.place s.lock s.holder
  chains : Chains (Place.req ∘ s.place) s.disk
  flow : Flow (Place.waits ∘ s.place) s.disk s.dev s.busy qa qu
  notified : Notified s.place s.disk s.busy
  story : Story (Place.waits ∘ s.place) s.dev qa s.hist

namespace Inv
variable {s : State P B} {qa qu : List (Fin NUM)} {i : Fin NUM} {p : P} {c : Req B}

theorem init : Inv (State.init P B) [] [] where
  locks := ⟨fun p => by simp [State.init, Place.inside], fun _ _ h => by cases h⟩
  chains := by
    refine ⟨?_, ?_, ?_, ?_, fun _ h => by cases h⟩
    · exact fun _ _ h => by cases h
    · exact fun _ _ h => by cases h
    · exact fun _ _ h => by cases h
    · exact fun _ _ _ _ _ h => by cases h
  flow := by
    refine ⟨?_, ?_, List.nodup_nil, ?_, fun _ h => (by cases h), fun _ h => by cases h⟩
    · rw [RingBuf.contents, RingBuf.used_eq_zero.mpr rfl]
      rfl
    · rw [RingBuf.contents, RingBuf.used_eq_zero.mpr rfl]
      rfl
    · intro h
      refine ⟨fun h => (by cases h), ?_⟩
      rintro ⟨p, c, hp, -⟩
      cases hp
  notified := fun _ _ h => by cases h
  story := by
    refine ⟨fun _ _ h => (by cases h), fun _ _ h => (by cases h), ?_⟩
    intro after before p c h
    exact absurd h (by simp [State.init])

theorem taken_of_mem (h : Inv s qa qu) (hi : i ∈ heads qa s.dev qu) : s.disk.free i = false := by
  obtain ⟨p, c, hp, rfl, -⟩ := (h.flow.mem i).mp hi
  exact h.chains.taken p c (Place.req_of_waits hp) c.i₀ (by simp [Req.descs])

theorem same (h : Inv s qa qu) {s' : State P B} (hwoken : Woken s.place s'.place)
    (hrest : s' = { s with disk := s'.disk, place := s'.place })
    (hdisk : s'.disk = { s.disk with desc := s'.disk.desc })
    (hdesc : ∀ i, s.disk.free i = false → s'.disk.desc i = s.disk.desc i) : Inv s' qa qu := by
  have hwaits : ∀ p, (Place.waits ∘ s'.place) p = (Place.waits ∘ s.place) p := hwoken.waits
  rw [hrest]
  constructor
  · exact h.locks.woken hwoken
  · refine h.chains.frame hwoken.req ?_ ?_
    · rw [hdisk]
    · intro p c hp hc
      refine hc.frame ?_ ?_ ?_
      · rw [hdisk]
      · rw [hdisk]
      · exact fun i hi => hdesc i (h.chains.taken p c hp i hi)
  · refine h.flow.frame hwaits ?_ ?_ ?_ ?_ <;>
    · rw [hdisk]
      try exact fun _ => rfl
  · intro p c hp
    change s'.place p = _ at hp
    have hin : (s.place p).inside = true := by
      rw [← hwoken.inside, hp]
      rfl
    rw [hwoken.awake p hin] at hp
    rw [hdisk]
    exact h.notified p c hp
  · rw [funext hwaits]
    exact h.story

variable [DecidableEq P]

section
variable (h : Inv s qa qu)
include h

theorem move {x : Place B} {lock : Option P} (hlocks : Locks (update s.place p x) lock s.holder)
    (hreq : x.req = (s.place p).req) (hwaits : x.waits = (s.place p).waits)
    (hx : ∀ c, x ≠ .notify c) : Inv { s with lock := lock, place := update s.place p x } qa qu := by
  have hfun : ∀ {α : Type} (f : Place B → α), f x = f (s.place p) →
      f ∘ update s.place p x = f ∘ s.place := by
    intro α f hf
    rw [comp_update, hf]
    exact update_eq_self p (f ∘ s.place)
  refine ⟨hlocks, ?_, ?_, ?_, ?_⟩
  · rw [hfun _ hreq]
    exact h.chains
  · rw [hfun _ hwaits]
    exact h.flow
  · intro q c hq
    change update s.place p x q = .notify c at hq
    by_cases hqp : q = p
    · rw [hqp, update_self] at hq
      exact absurd hq (hx c)
    · rw [update_of_ne hqp] at hq
      exact h.notified q c hq
  · rw [hfun _ hwaits]
    exact h.story

theorem leave {x : Place B} (hp : (s.place p).inside = true) (hreq : x.req = (s.place p).req)
    (hwaits : x.waits = (s.place p).waits) (hbuf : ∀ b, x.buf = some b → (s.place p).buf = some b)
    (hx : x.inside = false) : Inv (s.leave p x) qa qu := by
  refine h.move (h.locks.leave (fun b hb => h.locks.held p b (hbuf b hb)) hp hx) hreq hwaits ?_
  rintro c rfl
  cases hx

theorem enter (hp : (s.place p).entering = true) (hlock : s.lock = none) : Inv { s with
      lock := some p
      place := update s.place p ((s.place p).put .inside) } qa qu := by
  have hput : ∀ x : Place B, x.entering = true → (x.put .inside).inside = true ∧
      (x.put .inside).req = x.req ∧ (x.put .inside).waits = x.waits ∧
      (x.put .inside).buf = x.buf ∧ ∀ c, x.put .inside ≠ .notify c := by
    intro x hx
    unfold Place.entering at hx
    split at hx
    · exact ⟨rfl, rfl, rfl, rfl, nofun⟩
    · exact ⟨rfl, rfl, rfl, rfl, nofun⟩
    · exact ⟨rfl, rfl, rfl, rfl, nofun⟩
    · cases hx
  obtain ⟨hin, hreq, hwaits, hbuf, hx⟩ := hput _ hp
  refine h.move (h.locks.move ?_ ?_) hreq hwaits hx
  · intro b hb
    rw [hbuf] at hb
    exact h.locks.held p b hb
  · intro q
    by_cases hqp : q = p
    · rw [hqp, update_self]
      simp [hin]
    · rw [update_of_ne hqp, h.locks.lock q, hlock]
      simp [Ne.symm hqp]

/-! ## The steps of the driver -/

omit [DecidableEq P] in
theorem alloc_failed {l : List (Fin NUM)} {s' : State P B} (hfree : ∀ i ∈ l, s.disk.free i = true)
    (hfreed : Freed (s.claim l) s' l) : Inv s' qa qu := by
  have hsame : s'.disk.free = s.disk.free := by
    funext i
    rw [hfreed.free]
    simp only [State.claim]
    by_cases hi : i ∈ l
    · simp [hi, hfree i hi]
    · simp [hi]
  refine h.same hfreed.woken hfreed.rest ?_ ?_
  · rw [hfreed.disk, hsame]
    rfl
  · intro i hi
    refine hfreed.desc i ?_
    intro hil
    rw [hfree i hil] at hi
    cases hi

theorem alloc_got [DecidableEq B] {blockno : BitVec 32} {write : Bool}
    (hp : s.place p = .alloc .inside c.b blockno write) (hnodup : c.descs.Nodup)
    (hfree : ∀ i ∈ c.descs, s.disk.free i = true) : Inv { s.claim c.descs with
      disk := (s.claim c.descs).disk.format c
      busy := update s.busy c.b true
      place := update s.place p (.notify c) } qa qu := by
  have hin : (s.place p).inside = true := by
    rw [hp]
    rfl
  have hnew : c.i₀ ∉ heads qa s.dev qu := by
    intro hmem
    have := hfree c.i₀ (by simp [Req.descs])
    rw [h.taken_of_mem hmem] at this
    cases this
  have hroom := h.flow.avail_cell_ne hnew
  have hwaits : Place.waits ∘ update s.place p (.notify c) = Place.waits ∘ s.place := by
    rw [comp_update, show Place.waits (.notify c) = (Place.waits ∘ s.place) p by
      rw [Function.comp_apply, hp]; rfl]
    exact update_eq_self p _
  constructor
  · exact h.locks.stay (fun b hb => h.locks.held p b (by rw [hp]; exact hb)) hin.symm
  · rw [comp_update]
    exact h.chains.add (by rw [Function.comp_apply, hp]; rfl) hnodup hfree rfl
  · rw [hwaits]
    constructor
    · -- the entry is written beyond the ones the device has not taken
      rw [← h.flow.avail]
      refine List.map_congr_left ?_
      intro k hk
      exact update_of_ne (hroom k (List.mem_range.mp hk)) _ _
    · exact h.flow.used
    · exact h.flow.nodup
    · intro i
      refine (h.flow.mem i).trans ?_
      have hbusy : ∀ q c', (Place.waits ∘ s.place) q = some c' →
          update s.busy c.b true c'.b = s.busy c'.b := by
        intro q c' hq
        refine update_of_ne ?_ _ _
        intro heq
        have hbuf := Place.buf_of_req (Place.req_of_waits hq)
        rw [heq] at hbuf
        obtain rfl := h.locks.eq_of_buf hbuf (show (s.place p).buf = some c.b by rw [hp]; rfl)
        rw [Function.comp_apply, hp] at hq
        cases hq
      constructor
      · rintro ⟨q, c', hq, hi, hb⟩
        exact ⟨q, c', hq, hi, (hbusy q c' hq).trans hb⟩
      · rintro ⟨q, c', hq, hi, hb⟩
        exact ⟨q, c', hq, hi, (hbusy q c' hq).symm.trans hb⟩
    · intro i hi
      have hne : i ≠ c.i₀ := by
        rintro rfl
        exact hnew (List.mem_append_right _ (List.mem_append_right _ hi))
      change (update s.disk.info c.i₀ _ i).status = 0
      rw [update_of_ne hne]
      exact h.flow.status i hi
    · exact h.flow.done
  · refine Notified.update h.locks hin ?_
    intro c' hc'
    obtain rfl : c = c' := Place.notify.inj hc'
    exact ⟨update_self .., update_self ..⟩
  · rw [hwaits]
    exact h.story

theorem submit (hp : s.place p = .notify c) : Inv { s with
      disk := { s.disk with avail := { s.disk.avail with idx := s.disk.avail.idx + 1 } }
      place := update s.place p (.wait .inside c)
      hist := .submit p c :: s.hist } (qa ++ [c.i₀]) qu := by
  obtain ⟨hbusy, hring⟩ := h.notified p c hp
  have hin : (s.place p).inside = true := by
    rw [hp]
    rfl
  have hreq : (Place.req ∘ s.place) p = some c := by
    rw [Function.comp_apply, hp]
    rfl
  have hnew : c.i₀ ∉ heads qa s.dev qu := by
    intro hmem
    obtain ⟨q, c', hq, hhead, -⟩ := (h.flow.mem _).mp hmem
    obtain ⟨rfl, -⟩ := h.chains.head_inj (Place.req_of_waits hq) hreq hhead
    rw [Function.comp_apply, hp] at hq
    cases hq
  have hlen := h.flow.length_lt hnew
  have hperm : (heads (qa ++ [c.i₀]) s.dev qu).Perm (c.i₀ :: heads qa s.dev qu) := by
    simp only [heads, List.append_assoc, List.singleton_append]
    exact List.perm_middle
  have hwaits : ∀ q c', (Place.waits ∘ update s.place p (.wait .inside c)) q = some c' ↔
      q = p ∧ c = c' ∨ q ≠ p ∧ (Place.waits ∘ s.place) q = some c' := by
    intro q c'
    rw [Function.comp_apply]
    by_cases hqp : q = p
    · rw [hqp, update_self]
      simp [Place.waits]
    · rw [update_of_ne hqp]
      simp [hqp]
  constructor
  · exact h.locks.stay (fun b hb => h.locks.held p b (by rw [hp]; exact hb)) hin.symm
  · refine h.chains.frame ?_ rfl fun q c' _ hc' => hc'.frame rfl rfl fun _ _ => rfl
    intro q
    rw [comp_update, show Place.req (.wait .inside c) = (Place.req ∘ s.place) p from hreq.symm,
      update_eq_self]
  · constructor
    · -- the entry has been written before it is counted
      have hpush : (⟨s.disk.avail.ring, s.dev.last, s.disk.avail.idx + 1⟩ : RingBuf 16 NUM ℕ) =
          (s.disk.availRing s.dev).push c.i₀ := by
        simp only [RingBuf.push, Disk.availRing]
        rw [← hring, update_eq_self]
      change (⟨s.disk.avail.ring, s.dev.last, s.disk.avail.idx + 1⟩ : RingBuf 16 NUM ℕ).contents = _
      rw [hpush, RingBuf.contents_push num_dvd num_lt (by rw [h.flow.used_avail]; omega),
        h.flow.avail,
        List.map_append]
      rfl
    · exact h.flow.used
    · rw [hperm.nodup_iff, List.nodup_cons]
      exact ⟨hnew, h.flow.nodup⟩
    · intro i
      rw [hperm.mem_iff, List.mem_cons, h.flow.mem]
      constructor
      · rintro (rfl | ⟨q, c', hq, hi, hb⟩)
        · exact ⟨p, c, (hwaits p c).mpr (.inl ⟨rfl, rfl⟩), rfl, hbusy⟩
        · have hqp : q ≠ p := by
            rintro rfl
            rw [Function.comp_apply, hp] at hq
            cases hq
          exact ⟨q, c', (hwaits q c').mpr (.inr ⟨hqp, hq⟩), hi, hb⟩
      · rintro ⟨q, c', hq, hi, hb⟩
        rcases (hwaits q c').mp hq with ⟨-, rfl⟩ | ⟨-, hq⟩
        · exact .inl hi.symm
        · exact .inr ⟨q, c', hq, hi, hb⟩
    · exact h.flow.status
    · exact h.flow.done
  · exact Notified.update h.locks hin fun _ h => by cases h
  · have hproc : ∀ q, q ≠ p → (Hist.submit p c : Hist P B).proc ≠ some q :=
      fun q hqp heq => hqp (Option.some.inj heq).symm
    constructor
    · intro q c' hq
      rcases (hwaits q c').mp hq with ⟨rfl, rfl⟩ | ⟨hqp, hq⟩
      · exact ⟨[], s.hist, rfl, fun _ h => (by cases h), trivial⟩
      · exact (h.story.asked q c' hq).cons (hproc q hqp) fun _ _ => trivial
    · intro q c' hq hnot
      rcases (hwaits q c').mp hq with ⟨rfl, rfl⟩ | ⟨hqp, hq⟩
      · exact absurd (by simp) hnot
      · refine (h.story.served q c' hq ?_).cons (hproc q hqp) fun _ => List.mem_cons_of_mem _
        intro hmem
        refine hnot ?_
        rcases List.mem_append.mp hmem with hmem | hmem
        · exact List.mem_append_left _ (List.mem_append_left _ hmem)
        · exact List.mem_append_right _ hmem
    · exact returned_cons (fun _ _ h => by cases h) h.story.returned

theorem free [DecidableEq B] (hp : s.place p = .wait .inside c) (hbusy : s.busy c.b = false) :
    ∃ s', freeChain (NUM + 1) (s.forget c.i₀) c.i₀ = .ok s' ∧
      (s'.disk.avail.ring = s.disk.avail.ring ∧ s'.disk.used.ring = s.disk.used.ring) ∧
      Inv { s'.leave p .idle with hist := .ret p c :: s'.hist } qa qu := by
  have hin : (s.place p).inside = true := by
    rw [hp]
    rfl
  have hreq : (Place.req ∘ s.place) p = some c := by
    rw [Function.comp_apply, hp]
    rfl
  have hwait : (Place.waits ∘ s.place) p = some c := by
    rw [Function.comp_apply, hp]
    rfl
  have hother : ∀ q c', q ≠ p → (Place.req ∘ s.place) q = some c' → c'.i₀ ≠ c.i₀ :=
    fun q c' hqp hq hhead => hqp (h.chains.head_inj hq hreq hhead).1
  have hnot : c.i₀ ∉ heads qa s.dev qu := by
    intro hmem
    obtain ⟨q, c', hq, hhead, hb⟩ := (h.flow.mem _).mp hmem
    obtain ⟨-, rfl⟩ := h.chains.head_inj (Place.req_of_waits hq) hreq hhead
    rw [hbusy] at hb
    cases hb
  have hserved : Served p c s.hist := by
    refine h.story.served p c hwait ?_
    intro hmem
    refine hnot ?_
    rcases List.mem_append.mp hmem with hmem | hmem
    · exact List.mem_append_left _ hmem
    · exact List.mem_append_right _ (List.mem_append_left _ hmem)
  have hlinked : Linked (s.forget c.i₀).disk c := by
    obtain ⟨h0, h1, h2⟩ := (h.chains.formatted p c hreq).toLinked
    exact ⟨h0, h1, h2⟩
  obtain ⟨s', hs', hfreed⟩ :=
    freeChain_ok hlinked (h.chains.nodup p c hreq) (h.chains.taken p c hreq) 6
  refine ⟨s', hs', by rw [hfreed.disk]; exact ⟨rfl, rfl⟩, ?_⟩
  have hwaits : ∀ q c', (Place.waits ∘ update s'.place p .idle) q = some c' ↔
      q ≠ p ∧ (Place.waits ∘ s.place) q = some c' := by
    intro q c'
    rw [show (Place.waits ∘ s.place) q = (s'.place q).waits from (hfreed.woken.waits q).symm,
      Function.comp_apply]
    by_cases hqp : q = p
    · rw [hqp, update_self]
      simp [Place.waits]
    · rw [update_of_ne hqp]
      simp [hqp]
  have hdisk := hfreed.disk
  rw [hfreed.rest]
  constructor
  · refine (h.locks.woken hfreed.woken).leave (fun _ h => by cases h) ?_ rfl
    exact (hfreed.woken.inside p).trans hin
  · change Chains (Place.req ∘ update s'.place p .idle) s'.disk
    rw [comp_update, show Place.req ∘ s'.place = Place.req ∘ s.place from
      funext hfreed.woken.req]
    refine h.chains.remove hreq hfreed.free ?_
    intro q c' hqp hq hc'
    refine hc'.frame ?_ ?_ ?_
    · rw [hfreed.disk]
      rfl
    · rw [hfreed.disk]
      exact congrArg Info.b (update_of_ne (hother q c' hqp hq) _ _)
    · intro i hi
      exact hfreed.desc i fun hic => hqp (h.chains.disjoint q p c' c i hq hreq hi hic)
  · constructor
    · change (s'.disk.availRing s.dev).contents = _
      rw [hdisk]
      exact h.flow.avail
    · change s'.disk.usedRing.contents = _
      rw [hdisk]
      exact h.flow.used
    · exact h.flow.nodup
    · intro i
      refine (h.flow.mem i).trans ?_
      constructor
      · rintro ⟨q, c', hq, hi, hb⟩
        refine ⟨q, c', (hwaits q c').mpr ⟨?_, hq⟩, hi, hb⟩
        rintro rfl
        rw [hwait] at hq
        cases hq
        rw [hbusy] at hb
        cases hb
      · rintro ⟨q, c', hq, hi, hb⟩
        exact ⟨q, c', ((hwaits q c').mp hq).2, hi, hb⟩
    · intro i hi
      change (s'.disk.info i).status = 0
      rw [hdisk, ← h.flow.status i hi]
      by_cases hic : i = c.i₀
      · rw [hic]
        change (update s.disk.info c.i₀ _ c.i₀).status = _
        rw [update_self]
      · exact congrArg Info.status (update_of_ne hic _ _)
    · change ∀ i, s.dev.done = some i → s'.disk.used.ring (cell s'.disk.used.idx) = i
      rw [hdisk]
      exact h.flow.done
  · refine Notified.update (h.locks.woken hfreed.woken) ?_ fun _ h => by cases h
    exact (hfreed.woken.inside p).trans hin
  · have hproc : ∀ q, q ≠ p → (Hist.ret p c : Hist P B).proc ≠ some q :=
      fun q hqp heq => hqp (Option.some.inj heq).symm
    constructor
    · intro q c' hq
      obtain ⟨hqp, hq⟩ := (hwaits q c').mp hq
      exact (h.story.asked q c' hq).cons (hproc q hqp) fun _ _ => trivial
    · intro q c' hq hnot
      obtain ⟨hqp, hq⟩ := (hwaits q c').mp hq
      exact (h.story.served q c' hq hnot).cons (hproc q hqp) fun _ => List.mem_cons_of_mem _
    · intro after before q c' heq
      cases after with
      | nil =>
        obtain ⟨hret, rfl⟩ := List.cons.inj heq
        obtain ⟨rfl, rfl⟩ := Hist.ret.inj hret
        exact hserved
      | cons e after => exact h.story.returned after before q c' (List.cons.inj heq).2

omit [DecidableEq P] in
theorem intr [DecidableEq B] {p0 : P} (hp0 : s.place p0 = .intr .inside)
    (hne : s.disk.usedIdx ≠ s.disk.used.idx) : ∃ i qu', qu = i :: qu' ∧
    s.disk.used.ring (cell s.disk.usedIdx) = i ∧ (s.disk.info i).status = 0 ∧
    ∃ b, (s.disk.info i).b = some b ∧
      Inv { wakeup { s with busy := update s.busy b false } (.buf b) with
        disk := { s.disk with usedIdx := s.disk.usedIdx + 1 } } qa qu' := by
  have hpos : 0 < s.disk.usedRing.used := by
    rw [Nat.pos_iff_ne_zero]
    exact fun hzero => hne (RingBuf.used_eq_zero.mp hzero)
  obtain ⟨hcons, -⟩ := RingBuf.contents_pop hpos
  rw [h.flow.used] at hcons
  cases qu with
  | nil => cases hcons
  | cons i qu =>
    rw [List.map_cons] at hcons
    obtain ⟨hhead, htail⟩ := List.cons.inj hcons
    have hmem : i ∈ heads qa s.dev (i :: qu) := by simp [heads]
    obtain ⟨p, c, hp, rfl, hbusy⟩ := (h.flow.mem i).mp hmem
    have hreq := Place.req_of_waits hp
    have hinfo := (h.chains.formatted p c hreq).info
    refine ⟨c.i₀, qu, rfl, hhead.symm, h.flow.status _ (by simp), c.b, hinfo, ?_⟩
    have hperm : (heads qa s.dev (c.i₀ :: qu)).Perm (c.i₀ :: heads qa s.dev qu) := by
      simp only [heads, ← List.append_assoc]
      exact List.perm_middle
    have hnodup : c.i₀ ∉ heads qa s.dev qu ∧ (heads qa s.dev qu).Nodup :=
      List.nodup_cons.mp (hperm.nodup_iff.mp h.flow.nodup)
    have hwoken := wakeup_woken { s with busy := update s.busy c.b false } (.buf c.b)
    -- no other process waits for the same buffer
    have hother : ∀ q c', (Place.waits ∘ s.place) q = some c' → (c'.b = c.b ↔ c'.i₀ = c.i₀) := by
      intro q c' hq
      have hreq' := Place.req_of_waits hq
      constructor
      · intro hb
        have hbuf := Place.buf_of_req hreq'
        rw [hb] at hbuf
        obtain rfl := h.locks.eq_of_buf hbuf (Place.buf_of_req hreq)
        rw [hp] at hq
        rw [Option.some.inj hq]
      · intro hi
        rw [(h.chains.head_inj hreq' hreq hi).2]
    constructor
    · exact h.locks.woken hwoken
    · exact h.chains.frame hwoken.req rfl fun q c' _ hc' => hc'.frame rfl rfl fun _ _ => rfl
    · constructor
      · exact h.flow.avail
      · exact htail.symm
      · exact hnodup.2
      · intro i
        have hheads : i ∈ heads qa s.dev qu ↔ i ≠ c.i₀ ∧ i ∈ heads qa s.dev (c.i₀ :: qu) := by
          rw [hperm.mem_iff, List.mem_cons]
          constructor
          · intro hi
            refine ⟨?_, .inr hi⟩
            rintro rfl
            exact hnodup.1 hi
          · rintro ⟨hne, hi⟩
            exact hi.resolve_left hne
        refine hheads.trans ?_
        rw [h.flow.mem]
        constructor
        · rintro ⟨hne, q, c', hq, rfl, hb⟩
          refine ⟨q, c', (hwoken.waits q).trans hq, rfl, ?_⟩
          have hb' : c'.b ≠ c.b := fun hb' => hne ((hother q c' hq).mp hb')
          exact (update_of_ne hb' _ _).trans hb
        · rintro ⟨q, c', hq, rfl, hb⟩
          replace hq := (hwoken.waits q).symm.trans hq
          change update s.busy c.b false c'.b = true at hb
          have hb' : c'.b ≠ c.b := by
            intro hb'
            rw [hb', update_self] at hb
            cases hb
          rw [update_of_ne hb'] at hb
          exact ⟨fun hi => hb' ((hother q c' hq).mpr hi), q, c', hq, rfl, hb⟩
      · exact fun i hi => h.flow.status i (by
          rcases List.mem_append.mp hi with hi | hi
          · exact List.mem_append_left _ hi
          · exact List.mem_append_right _ (List.mem_cons_of_mem _ hi))
      · exact h.flow.done
    · intro q c' hq
      have hin : (s.place q).inside = true := by
        rw [← hwoken.inside, hq]
        rfl
      rw [hwoken.awake q hin] at hq
      obtain rfl := h.locks.eq_of_inside hin (by rw [hp0]; rfl)
      change s.place q = _ at hq
      rw [hp0] at hq
      cases hq
    · refine ⟨?_, ?_, h.story.returned⟩
      · exact fun q c' hq => h.story.asked q c' ((hwoken.waits q).symm.trans hq)
      · exact fun q c' hq => h.story.served q c' ((hwoken.waits q).symm.trans hq)

/-! ## The steps of the device -/

omit [DecidableEq P] in
theorem take (hne : s.dev.last ≠ s.disk.avail.idx) : ∃ i qa', qa = i :: qa' ∧
    s.disk.avail.ring (cell s.dev.last) = i ∧
    Inv { s with dev := { s.dev with last := s.dev.last + 1, pending := s.dev.pending ++ [i] } }
      qa' qu := by
  have hpos : 0 < (s.disk.availRing s.dev).used := by
    rw [Nat.pos_iff_ne_zero]
    exact fun hzero => hne (RingBuf.used_eq_zero.mp hzero)
  obtain ⟨hcons, -⟩ := RingBuf.contents_pop hpos
  rw [h.flow.avail] at hcons
  cases qa with
  | nil => cases hcons
  | cons i qa =>
    rw [List.map_cons] at hcons
    obtain ⟨hhead, htail⟩ := List.cons.inj hcons
    have hrest : (qa ++ (s.dev.pending ++ [i])).Perm (i :: qa ++ s.dev.pending) := by
      rw [← List.append_assoc]
      exact List.perm_append_singleton i _
    refine ⟨i, qa, rfl, hhead.symm, h.locks, h.chains, ?_, h.notified, ?_⟩
    · refine h.flow.move ?_ htail.symm h.flow.used h.flow.status h.flow.done
      simp only [heads, ← List.append_assoc]
      rw [← List.append_assoc] at hrest
      exact (hrest.append_right _).append_right _
    · refine ⟨h.story.asked, ?_, h.story.returned⟩
      intro p c hp hnot
      exact h.story.served p c hp fun hmem => hnot (hrest.mem_iff.mpr hmem)

omit [DecidableEq P] in
theorem finish (hi : i ∈ s.dev.pending) (hdone : s.dev.done = none) :
    ∃ op b, s.disk.walk i = some (op, b, i) ∧
    Inv { s with
      disk := { s.disk with
        info := update s.disk.info i { s.disk.info i with status := 0 }
        used := { s.disk.used with
          ring := update s.disk.used.ring (cell s.disk.used.idx) i } }
      dev := { s.dev with pending := s.dev.pending.erase i, done := some i }
      hist := .complete i b op :: s.hist } qa qu := by
  have hmem : i ∈ heads qa s.dev qu :=
    List.mem_append_right _ (List.mem_append_left _ hi)
  obtain ⟨p, c, hp, rfl, hbusy⟩ := (h.flow.mem i).mp hmem
  have hreq := Place.req_of_waits hp
  refine ⟨c.op, c.b, (h.chains.formatted p c hreq).walk, h.locks, ?_, ?_, h.notified, ?_⟩
  · refine h.chains.frame (fun _ => rfl) rfl ?_
    intro q c' _ hc'
    refine hc'.frame rfl ?_ fun _ _ => rfl
    change (update s.disk.info c.i₀ _ c'.i₀).b = _
    by_cases heq : c'.i₀ = c.i₀
    · rw [heq, update_self]
    · rw [update_of_ne heq]
  · have hroom := h.flow.used_cell_ne hi
    refine h.flow.move ?_ h.flow.avail ?_ ?_ ?_
    · simp only [heads, hdone, Option.toList_none, Option.toList_some, List.nil_append]
      refine List.Perm.append_left _ ?_
      rw [← List.append_assoc]
      refine List.Perm.append_right _ ?_
      exact (List.perm_append_singleton _ _).trans (List.perm_cons_erase hi).symm
    · -- the entry is written beyond the ones the driver has not looked at
      rw [← h.flow.used]
      refine List.map_congr_left ?_
      intro k hk
      exact update_of_ne (hroom k (List.mem_range.mp hk)) _ _
    · intro j hj
      change (update s.disk.info c.i₀ _ j).status = 0
      by_cases hjc : j = c.i₀
      · rw [hjc, update_self]
      · rw [update_of_ne hjc]
        refine h.flow.status j (List.mem_append_right _ ?_)
        simpa [hjc] using hj
    · rintro j hj
      cases hj
      exact update_self ..
  · constructor
    · exact fun q c' hq => (h.story.asked q c' hq).cons (fun h => by cases h) fun _ _ => trivial
    · intro q c' hq hnot
      by_cases heq : c'.i₀ = c.i₀
      · obtain ⟨-, rfl⟩ := h.chains.head_inj (Place.req_of_waits hq) hreq heq
        exact (h.story.asked q c' hq).cons (fun h => by cases h) fun _ _ => List.mem_cons_self
      · refine (h.story.served q c' hq ?_).cons (fun h => by cases h)
          fun _ => List.mem_cons_of_mem _
        intro hmem
        refine hnot ?_
        rcases List.mem_append.mp hmem with hmem | hmem
        · exact List.mem_append_left _ hmem
        · exact List.mem_append_right _ ((List.mem_erase_of_ne heq).mpr hmem)
    · exact returned_cons (fun _ _ h => by cases h) h.story.returned

omit [DecidableEq P] in
theorem publish (hi : s.dev.done = some i) : Inv { s with
      disk := { s.disk with used := { s.disk.used with idx := s.disk.used.idx + 1 } }
      dev := { s.dev with done := none } } qa (qu ++ [i]) := by
  have hlen := h.flow.length_le
  rw [hi, Option.toList_some, List.length_singleton] at hlen
  refine ⟨h.locks, ?_, ?_, h.notified, h.story.asked, h.story.served, h.story.returned⟩
  · exact h.chains.frame (fun _ => rfl) rfl fun q c' _ hc' => hc'.frame rfl rfl fun _ _ => rfl
  · refine h.flow.move ?_ h.flow.avail ?_ ?_ fun _ h => by cases h
    · simp only [heads, hi, Option.toList_none, Option.toList_some, List.nil_append]
      refine List.Perm.append_left _ (List.Perm.append_left _ ?_)
      exact List.perm_append_singleton i qu
    · have hpush : (⟨s.disk.used.ring, s.disk.usedIdx, s.disk.used.idx + 1⟩ : RingBuf 16 NUM ℕ) =
          s.disk.usedRing.push i := by
        simp only [RingBuf.push, Disk.usedRing]
        rw [← h.flow.done i hi, update_eq_self]
      change (⟨s.disk.used.ring, s.disk.usedIdx, s.disk.used.idx + 1⟩ :
        RingBuf 16 NUM ℕ).contents = _
      rw [hpush, RingBuf.contents_push num_dvd num_lt (by rw [h.flow.used_used]; omega),
        h.flow.used,
        List.map_append]
      rfl
    · intro j hj
      refine h.flow.status j ?_
      rw [hi]
      simp only [Option.toList_none, List.nil_append, List.mem_append, List.mem_singleton] at hj
      rcases hj with hj | rfl
      · exact List.mem_append_right _ hj
      · exact List.mem_append_left _ (List.mem_singleton_self _)

end

end Inv

end
end Xv6.Virtio
