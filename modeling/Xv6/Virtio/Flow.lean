import Xv6.Virtio.Descs

/-! # Requests on their way

The heads of the requests that the device has been given and the driver has not seen completed pass
through the avail ring, the device and the used ring. This module has the parts of the invariant:
the heads on their way, the history, and the locks.
-/

namespace Xv6.Virtio
open RingBuf (cell)
set_option autoImplicit false
open Function (update update_self update_of_ne)

section
variable {P B : Type}

/-! ## The heads on their way -/

def Disk.availRing (d : Disk B) (dev : Device) : RingBuf 16 NUM ℕ :=
  ⟨d.avail.ring, dev.last, d.avail.idx⟩

def Disk.usedRing (d : Disk B) : RingBuf 16 NUM ℕ := ⟨d.used.ring, d.usedIdx, d.used.idx⟩

/-- The heads in the avail ring, in the device and in the used ring. -/
def heads (qa : List (Fin NUM)) (dev : Device) (qu : List (Fin NUM)) : List (Fin NUM) :=
  qa ++ (dev.pending ++ (dev.done.toList ++ qu))

structure Flow (waits : P → Option (Req B)) (d : Disk B) (dev : Device) (busy : B → Bool)
    (qa qu : List (Fin NUM)) : Prop where
  avail : (d.availRing dev).contents = qa.map Fin.val
  used : d.usedRing.contents = qu.map Fin.val
  nodup : (heads qa dev qu).Nodup
  mem : ∀ h, h ∈ heads qa dev qu ↔ ∃ p c, waits p = some c ∧ c.i₀ = h ∧ busy c.b = true
  status : ∀ h ∈ dev.done.toList ++ qu, (d.info h).status = 0
  done : ∀ h, dev.done = some h → d.used.ring (cell d.used.idx) = h

theorem num_dvd : NUM ∣ 2 ^ 16 := by decide

theorem num_lt : NUM < 2 ^ 16 := by decide

namespace Flow
variable {waits : P → Option (Req B)} {d d' : Disk B} {dev dev' : Device} {busy busy' : B → Bool}
  {qa qa' qu qu' : List (Fin NUM)} {i : Fin NUM}

section
variable (h : Flow waits d dev busy qa qu)
include h

theorem used_avail : (d.availRing dev).used = qa.length := by
  rw [← RingBuf.length_contents, h.avail, List.length_map]

theorem used_used : d.usedRing.used = qu.length := by
  rw [← RingBuf.length_contents, h.used, List.length_map]

theorem length_le : qa.length + dev.pending.length + dev.done.toList.length + qu.length ≤ NUM := by
  have hle := h.nodup.length_le_card
  rw [Fintype.card_fin] at hle
  simp only [heads, List.length_append] at hle
  omega

theorem length_lt (hi : i ∉ heads qa dev qu) :
    qa.length + dev.pending.length + dev.done.toList.length + qu.length < NUM := by
  have hnodup : (i :: heads qa dev qu).Nodup := List.nodup_cons.mpr ⟨hi, h.nodup⟩
  have hle := hnodup.length_le_card
  rw [Fintype.card_fin, List.length_cons] at hle
  simp only [heads, List.length_append] at hle
  omega

theorem avail_cell_ne (hi : i ∉ heads qa dev qu) : ∀ k < (d.availRing dev).used,
      (cell (dev.last + BitVec.ofNat 16 k) : Fin NUM) ≠ cell d.avail.idx := by
  intro k hk
  have hlen := h.length_lt hi
  exact RingBuf.cell_ne_next num_dvd (by rw [h.used_avail]; omega) hk

theorem used_cell_ne (hi : i ∈ dev.pending) : ∀ k < d.usedRing.used,
      (cell (d.usedIdx + BitVec.ofNat 16 k) : Fin NUM) ≠ cell d.used.idx := by
  intro k hk
  have hlen := h.length_le
  have hpending := List.length_pos_of_mem hi
  exact RingBuf.cell_ne_next num_dvd (by rw [h.used_used]; omega) hk

theorem move (hperm : (heads qa' dev' qu').Perm (heads qa dev qu))
    (havail : (d'.availRing dev').contents = qa'.map Fin.val)
    (hused : d'.usedRing.contents = qu'.map Fin.val)
    (hstatus : ∀ h ∈ dev'.done.toList ++ qu', (d'.info h).status = 0)
    (hdone : ∀ h, dev'.done = some h → d'.used.ring (cell d'.used.idx) = h) :
    Flow waits d' dev' busy qa' qu' where
  avail := havail
  used := hused
  nodup := hperm.nodup_iff.mpr h.nodup
  mem i := hperm.mem_iff.trans (h.mem i)
  status := hstatus
  done := hdone

theorem frame {waits' : P → Option (Req B)} (hwaits : ∀ p, waits' p = waits p)
    (havail : d'.avail = d.avail) (hused : d'.used = d.used) (husedIdx : d'.usedIdx = d.usedIdx)
    (hinfo : ∀ i, (d'.info i).status = (d.info i).status) : Flow waits' d' dev busy qa qu := by
  obtain rfl : waits' = waits := funext hwaits
  refine h.move (List.Perm.refl _) ?_ ?_ ?_ ?_
  · rw [Disk.availRing, havail]
    exact h.avail
  · rw [Disk.usedRing, hused, husedIdx]
    exact h.used
  · intro i hi
    rw [hinfo]
    exact h.status i hi
  · rw [hused]
    exact h.done

end

end Flow

/-! ## The history -/

def Hist.proc : Hist P B → Option P
  | submit p _ => some p
  | complete _ _ _ => none
  | ret p _ => some p

/-- Since `p` gave its last request `c` to the device it has done nothing; `E` is about what has
happened since. -/
def Since (p : P) (c : Req B) (hist : List (Hist P B)) (E : List (Hist P B) → Prop) : Prop :=
  ∃ after before, hist = after ++ .submit p c :: before ∧ (∀ e ∈ after, e.proc ≠ some p) ∧ E after

def Asked (p : P) (c : Req B) (hist : List (Hist P B)) : Prop := Since p c hist fun _ => True

/-- Since then the device has completed it: its head, its buffer and its command. -/
def Served (p : P) (c : Req B) (hist : List (Hist P B)) : Prop :=
  Since p c hist fun after => .complete c.i₀ c.b c.op ∈ after

theorem Since.cons {p : P} {c : Req B} {hist : List (Hist P B)} {E E' : List (Hist P B) → Prop}
    (h : Since p c hist E) {e : Hist P B} (he : e.proc ≠ some p)
    (hE : ∀ after, E after → E' (e :: after)) : Since p c (e :: hist) E' := by
  obtain ⟨after, before, heq, hafter, hE'⟩ := h
  refine ⟨e :: after, before, by rw [heq]; rfl, ?_, hE _ hE'⟩
  intro e' he'
  rcases List.mem_cons.mp he' with rfl | he'
  · exact he
  · exact hafter e' he'

structure Story (waits : P → Option (Req B)) (dev : Device) (qa : List (Fin NUM))
    (hist : List (Hist P B)) : Prop where
  asked : ∀ p c, waits p = some c → Asked p c hist
  served : ∀ p c, waits p = some c → c.i₀ ∉ qa ++ dev.pending → Served p c hist
  returned : ∀ after before p c, hist = after ++ .ret p c :: before → Served p c before

theorem returned_cons {hist : List (Hist P B)} {e : Hist P B} (he : ∀ p c, e ≠ .ret p c)
    (h : ∀ after before p c, hist = after ++ .ret p c :: before → Served p c before) :
    ∀ after before p c, e :: hist = after ++ .ret p c :: before → Served p c before := by
  intro after before p c heq
  cases after with
  | nil =>
    rw [List.nil_append] at heq
    exact absurd (List.cons.inj heq).1 (he p c)
  | cons a after => exact h after before p c (List.cons.inj heq).2

/-! ## The locks -/

structure Locks (place : P → Place B) (lock : Option P) (holder : B → Option P) : Prop where
  lock : ∀ p, (place p).inside = true ↔ lock = some p
  held : ∀ p b, (place p).buf = some b → holder b = some p

namespace Locks
variable {place place' : P → Place B} {lock lock' : Option P} {holder : B → Option P} {p q : P}

theorem eq_of_inside (h : Locks place lock holder) (hp : (place p).inside = true)
    (hq : (place q).inside = true) : p = q := by
  have hlock := (h.lock p).mp hp
  rw [(h.lock q).mp hq] at hlock
  exact (Option.some.inj hlock).symm

theorem eq_of_buf (h : Locks place lock holder) {b : B} (hp : (place p).buf = some b)
    (hq : (place q).buf = some b) : p = q := by
  have hholder := h.held p b hp
  rw [h.held q b hq] at hholder
  exact (Option.some.inj hholder).symm

theorem woken (h : Locks place lock holder) (hwoken : Woken place place') :
    Locks place' lock holder where
  lock p := by
    rw [hwoken.inside]
    exact h.lock p
  held p b hp := by
    rw [hwoken.buf] at hp
    exact h.held p b hp

variable [DecidableEq P] {x : Place B}

section
variable (h : Locks place lock holder) (hbuf : ∀ b, x.buf = some b → holder b = some p)
include h hbuf

theorem move (hlock : ∀ q, (update place p x q).inside = true ↔ lock' = some q) :
    Locks (update place p x) lock' holder where
  lock := hlock
  held q b hq := by
    by_cases hqp : q = p
    · rw [hqp, update_self] at hq
      rw [hqp]
      exact hbuf b hq
    · rw [update_of_ne hqp] at hq
      exact h.held q b hq

theorem stay (hx : x.inside = (place p).inside) : Locks (update place p x) lock holder := by
  refine h.move hbuf ?_
  intro q
  by_cases hqp : q = p
  · rw [hqp, update_self, hx]
    exact h.lock p
  · rw [update_of_ne hqp]
    exact h.lock q

theorem leave (hp : (place p).inside = true) (hx : x.inside = false) :
    Locks (update place p x) none holder := by
  refine h.move hbuf ?_
  intro q
  by_cases hqp : q = p
  · rw [hqp, update_self, hx]
    simp
  · rw [update_of_ne hqp]
    exact ⟨fun hq => absurd (h.eq_of_inside hq hp) hqp, nofun⟩

end

end Locks

/-- The entry of a request that is about to be given to the device has been written. -/
def Notified (place : P → Place B) (d : Disk B) (busy : B → Bool) : Prop :=
  ∀ p c, place p = .notify c → busy c.b = true ∧ d.avail.ring (cell d.avail.idx) = c.i₀

theorem Notified.update [DecidableEq P] {place : P → Place B} {lock : Option P}
    {holder : B → Option P} {p : P} {x : Place B} {d : Disk B} {busy : B → Bool}
    (h : Locks place lock holder) (hp : (place p).inside = true)
    (hx : ∀ c, x = .notify c → busy c.b = true ∧ d.avail.ring (cell d.avail.idx) = c.i₀) :
    Notified (update place p x) d busy := by
  intro q c hq
  by_cases hqp : q = p
  · rw [hqp, update_self] at hq
    exact hx c hq
  · rw [update_of_ne hqp] at hq
    refine absurd (h.eq_of_inside ?_ hp) hqp
    rw [hq]
    rfl

end
end Xv6.Virtio
