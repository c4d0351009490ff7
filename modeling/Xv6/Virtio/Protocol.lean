import Xv6.Virtio.Inv

/-! # The request protocol

No step fails, no ring entry is overwritten before it is consumed, and a call returns after its own
request has been completed.
-/

namespace Xv6.Virtio
open RingBuf (cell)
set_option autoImplicit false
open Outcome (ensures_guard)

section
variable {P B : Type}

/-! ## Every step -/

/-- The entries of the rings that had not been consumed before the step are still there. -/
def KeepsRings (s s' : State P B) : Prop :=
  (∀ k < (s.disk.avail.idx - s.dev.last).toNat,
    s'.disk.avail.ring (cell (s.dev.last + BitVec.ofNat 16 k)) =
      s.disk.avail.ring (cell (s.dev.last + BitVec.ofNat 16 k))) ∧
  ∀ k < (s.disk.used.idx - s.disk.usedIdx).toNat,
    s'.disk.used.ring (cell (s.disk.usedIdx + BitVec.ofNat 16 k)) =
      s.disk.used.ring (cell (s.disk.usedIdx + BitVec.ofNat 16 k))

theorem KeepsRings.of_eq {s s' : State P B} (havail : s'.disk.avail.ring = s.disk.avail.ring)
    (hused : s'.disk.used.ring = s.disk.used.ring) : KeepsRings s s' :=
  ⟨fun _ _ => by rw [havail], fun _ _ => by rw [hused]⟩

variable [DecidableEq P] [DecidableEq B] {s : State P B} {qa qu : List (Fin NUM)}

def Good (s : State P B) (r : Outcome Fault (State P B)) : Prop :=
  r.Ensures (fun _ => False) fun s' => KeepsRings s s' ∧ ∃ qa' qu', Inv s' qa' qu'

theorem Inv.go (h : Inv s qa qu) {p : P} (hlock : s.lock = some p) : Good s (go s p) := by
  have hin := (h.locks.lock p).mpr hlock
  unfold Virtio.go
  split
  · next b blockno write hp =>
    obtain ⟨r, hr, halloc⟩ := alloc3Desc_ok s
    rw [hr]
    cases halloc with
    | got i0 i1 i2 hnodup hfree =>
      have hinv := h.alloc_got (c := ⟨b, write,
        (blockno * BitVec.ofNat 32 (BSIZE / 512)).setWidth 64, i0, i1, i2⟩) hp hnodup hfree
      refine ⟨⟨?_, fun _ _ => rfl⟩, qa, qu, hinv⟩
      have hnew : i0 ∉ heads qa s.dev qu := by
        intro hmem
        have := hfree i0 List.mem_cons_self
        rw [h.taken_of_mem hmem] at this
        cases this
      exact fun k hk => Function.update_of_ne (h.flow.avail_cell_ne hnew k hk) _ _
    | failed l s' hfree hfreed =>
      have hplace : s'.place p = s.place p := hfreed.woken.awake p hin
      refine ⟨.of_eq ?_ ?_, qa, qu, (h.alloc_failed hfree hfreed).leave ?_ ?_ ?_ ?_ rfl⟩
      · change s'.disk.avail.ring = _
        rw [hfreed.disk]
        rfl
      · change s'.disk.used.ring = _
        rw [hfreed.disk]
        rfl
      · rw [hplace]
        exact hin
      · rw [hplace, hp]
        rfl
      · rw [hplace, hp]
        rfl
      · rw [hplace, hp]
        exact fun _ => id
  · next c hp => exact ⟨.of_eq rfl rfl, _, _, h.submit hp⟩
  · next c hp =>
    split
    · refine ⟨.of_eq rfl rfl, qa, qu, h.leave hin ?_ ?_ ?_ rfl⟩
      · rw [hp]
        rfl
      · rw [hp]
        rfl
      · rw [hp]
        exact fun _ => id
    · next hbusy =>
      obtain ⟨s', hs', ⟨havail, hused⟩, hinv⟩ := h.free hp (Bool.eq_false_iff.mpr hbusy)
      rw [hs']
      exact ⟨.of_eq havail hused, qa, qu, hinv⟩
  · next hp =>
    split
    · next hne =>
      obtain ⟨i, qu', -, hi, hstatus, b, hb, hinv⟩ := h.intr hp hne
      have hlt : s.disk.used.ring (cell s.disk.usedIdx) < NUM := by
        rw [hi]
        exact i.isLt
      rw [dif_pos hlt]
      have heq : (⟨_, hlt⟩ : Fin NUM) = i := Fin.ext hi
      rw [heq, if_neg (not_not.mpr hstatus), hb]
      exact ⟨.of_eq rfl rfl, qa, qu', hinv⟩
    · refine ⟨.of_eq rfl rfl, qa, qu, h.leave hin ?_ ?_ (fun _ h => by cases h) rfl⟩
      · rw [hp]
        rfl
      · rw [hp]
        rfl
  · trivial

theorem Inv.step (h : Inv s qa qu) (e : Event P B) : Good s (step s e) := by
  cases e with
  | acquiresleep p b =>
    refine ensures_guard fun hfree => ?_
    refine ⟨.of_eq rfl rfl, qa, qu, ⟨h.locks.lock, ?_⟩, h.chains, h.flow, h.notified, h.story⟩
    intro q b' hq
    have hheld := h.locks.held q b' hq
    refine (Function.update_of_ne ?_ _ _).trans hheld
    rintro rfl
    rw [hfree.2] at hheld
    cases hheld
  | releasesleep p b =>
    refine ensures_guard fun hown => ?_
    refine ⟨.of_eq rfl rfl, qa, qu, ⟨h.locks.lock, ?_⟩, h.chains, h.flow, h.notified, h.story⟩
    intro q b' hq
    have hheld := h.locks.held q b' hq
    refine (Function.update_of_ne ?_ _ _).trans hheld
    rintro rfl
    -- the owner is in no request
    rw [hown.2] at hheld
    cases hheld
    change (s.place p).buf = _ at hq
    rw [hown.1] at hq
    cases hq
  | rw p b blockno write =>
    refine ensures_guard fun hp => ?_
    refine ⟨.of_eq rfl rfl, qa, qu, h.move (h.locks.stay ?_ ?_) ?_ ?_ fun _ h => by cases h⟩
    · intro b' hb'
      obtain rfl := Option.some.inj hb'
      exact hp.2
    all_goals
      rw [hp.1]
      rfl
  | intr p =>
    refine ensures_guard fun hp => ?_
    refine ⟨.of_eq rfl rfl, qa, qu,
      h.move (h.locks.stay (fun _ h => by cases h) ?_) ?_ ?_ fun _ h => by cases h⟩
    all_goals
      rw [hp]
      rfl
  | enter p =>
    exact ensures_guard fun hp => ⟨.of_eq rfl rfl, qa, qu, h.enter hp.1 hp.2⟩
  | go p =>
    exact ensures_guard h.go
  | take =>
    simp only [Virtio.step, Virtio.take]
    split
    · trivial
    · next hne =>
      obtain ⟨i, qa', -, hi, hinv⟩ := h.take hne
      have hlt : s.disk.avail.ring (cell s.dev.last) < NUM := by
        rw [hi]
        exact i.isLt
      have heq : (⟨_, hlt⟩ : Fin NUM) = i := Fin.ext hi
      rw [dif_pos hlt, heq]
      exact ⟨.of_eq rfl rfl, qa', qu, hinv⟩
  | finish i =>
    refine ensures_guard fun hi => ?_
    obtain ⟨op, b, hwalk, hinv⟩ := h.finish hi.1 hi.2
    rw [hwalk]
    refine ⟨⟨fun _ _ => rfl, ?_⟩, qa, qu, hinv⟩
    exact fun k hk => Function.update_of_ne (h.flow.used_cell_ne hi.1 k hk) _ _
  | publish =>
    simp only [Virtio.step, Virtio.publish]
    split
    · next i hi => exact ⟨.of_eq rfl rfl, qa, _, h.publish hi⟩
    · trivial

theorem inv_of_reachable (hs : (sys P B).Reachable s) : ∃ qa qu, Inv s qa qu := by
  refine hs.invariant (I := fun s => ∃ qa qu, Inv s qa qu) ?_ ?_
  · rintro s rfl
    exact ⟨[], [], .init⟩
  · rintro s e s' ⟨qa, qu, h⟩ hstep
    have hgood := h.step e
    rw [Good, show Virtio.step s e = .ok s' from hstep] at hgood
    exact hgood.2

/-- A descriptor is free, or it is in one chain. The chains have three descriptors, linked as the
device expects them. No step fails, no entry of a ring is overwritten before it is consumed, and
what has returned had been completed by the device. -/
theorem request_protocol (hs : (sys P B).Reachable s) :
    (∀ i, (s.disk.free i = true ∧ ∀ p c, (s.place p).req = some c → i ∉ c.descs) ∨
      s.disk.free i = false ∧ ∃! r : P × Req B, (s.place r.1).req = some r.2 ∧ i ∈ r.2.descs) ∧
    (∀ p c, (s.place p).req = some c → c.descs.Nodup ∧ Linked s.disk c) ∧
    (∀ e f, step s e ≠ .fail f) ∧
    (∀ e s', step s e = .ok s' → KeepsRings s s') ∧
    ∀ after before p c, s.hist = after ++ .ret p c :: before → Served p c before := by
  obtain ⟨qa, qu, h⟩ := inv_of_reachable hs
  refine ⟨?_, ?_, ?_, ?_, h.story.returned⟩
  · intro i
    cases hi : s.disk.free i with
    | true =>
      refine .inl ⟨rfl, ?_⟩
      intro p c hp hic
      rw [h.chains.taken p c hp i hic] at hi
      cases hi
    | false =>
      obtain ⟨p, c, hp, hic⟩ := h.chains.covered i hi
      refine .inr ⟨rfl, (p, c), ⟨hp, hic⟩, ?_⟩
      rintro ⟨q, c'⟩ ⟨hq, hic'⟩
      obtain rfl : q = p := h.chains.disjoint q p c' c i hq hp hic' hic
      have hcc' : some c' = some c := hq.symm.trans hp
      rw [Option.some.inj hcc']
  · exact fun p c hp => ⟨h.chains.nodup p c hp, (h.chains.formatted p c hp).toLinked⟩
  · intro e f hfail
    have hgood := h.step e
    rw [Good, hfail] at hgood
    exact hgood
  · intro e s' hok
    have hgood := h.step e
    rw [Good, hok] at hgood
    exact hgood.1

end

def threeRequests : List (Event (Fin 4) (Fin 3)) :=
  [.acquiresleep 0 0, .acquiresleep 1 1, .acquiresleep 2 2,
    .rw 0 0 7 false, .enter 0, .go 0, .go 0, .go 0,
    .rw 1 1 8 true, .enter 1, .go 1, .go 1, .go 1,
    .rw 2 2 9 false, .enter 2, .go 2,
    .take, .take, .finish 3, .publish, .finish 0, .publish,
    .intr 3, .enter 3, .go 3, .go 3, .go 3, .enter 1, .go 1,
    .enter 2, .go 2, .go 2, .go 2, .enter 0, .go 0]

theorem request_protocol_threeRequests : ∃ s : State (Fin 4) (Fin 3), (sys _ _).Reachable s ∧
    (List.finRange NUM).map s.disk.free = [true, true, true, false, false, false, true, true] ∧
    ∃ after before, s.hist = after ++ .ret 1 ⟨1, true, 16, 3, 4, 5⟩ :: before ∧
      Served 1 ⟨1, true, 16, 3, 4, 5⟩ before := by
  have hrun : ((TransSys.exec (fun s e => (step s e).result) (State.init (Fin 4) (Fin 3))
      threeRequests).map fun s => ((List.finRange NUM).map s.disk.free, s.hist)) =
      some ([true, true, true, false, false, false, true, true],
        [.ret 0 ⟨0, false, 14, 0, 1, 2⟩, .submit 2 ⟨2, false, 18, 3, 4, 5⟩,
          .ret 1 ⟨1, true, 16, 3, 4, 5⟩, .complete 0 0 ⟨VIRTIO_BLK_T_IN, 0, 14⟩,
          .complete 3 1 ⟨VIRTIO_BLK_T_OUT, 0, 16⟩, .submit 1 ⟨1, true, 16, 3, 4, 5⟩,
          .submit 0 ⟨0, false, 14, 0, 1, 2⟩]) := by decide +kernel
  obtain ⟨s, hs, h⟩ := Option.map_eq_some_iff.mp hrun
  obtain ⟨hfree, hhist⟩ := Prod.mk.inj h
  have hreach : (sys (Fin 4) (Fin 3)).Reachable s :=
    (TransSys.Reachable.init rfl).run (.of_exec (fun _ _ _ => Outcome.result_eq_some.mp) hs)
  obtain ⟨-, -, -, -, hreturned⟩ := request_protocol hreach
  have hsplit : s.hist = [.ret 0 ⟨0, false, 14, 0, 1, 2⟩, .submit 2 ⟨2, false, 18, 3, 4, 5⟩] ++
      .ret 1 ⟨1, true, 16, 3, 4, 5⟩ :: _ := hhist
  exact ⟨s, hreach, hfree, _, _, hsplit, hreturned _ _ _ _ hsplit⟩

end Xv6.Virtio
