import Xv6.Virtio.Driver
import Mathlib.Data.Fintype.Card

/-! # Descriptors and chains

What `alloc_desc`, `free_desc`, `free_chain` and `alloc3_desc` do to the state, and the chains that
the requests in flight own: together they are the descriptors that are not free.
-/

namespace Xv6.Virtio
open RingBuf (cell)
set_option autoImplicit false
open Function (update update_self update_of_ne)

section
variable {P B : Type}

/-! ## Places -/

def Place.req : Place B → Option (Req B)
  | notify c => some c
  | wait _ c => some c
  | _ => none

def Place.waits : Place B → Option (Req B)
  | wait _ c => some c
  | _ => none

def Place.buf : Place B → Option B
  | alloc _ b _ _ => some b
  | notify c => some c.b
  | wait _ c => some c.b
  | _ => none

def Place.inside : Place B → Bool
  | alloc .inside _ _ _ => true
  | notify _ => true
  | wait .inside _ => true
  | intr .inside => true
  | _ => false

structure Woken (pl pl' : P → Place B) : Prop where
  req : ∀ p, (pl' p).req = (pl p).req
  waits : ∀ p, (pl' p).waits = (pl p).waits
  buf : ∀ p, (pl' p).buf = (pl p).buf
  inside : ∀ p, (pl' p).inside = (pl p).inside
  awake : ∀ p, (pl p).inside = true → pl' p = pl p

theorem Woken.refl (pl : P → Place B) : Woken pl pl :=
  ⟨fun _ => rfl, fun _ => rfl, fun _ => rfl, fun _ => rfl, fun _ _ => rfl⟩

theorem Woken.trans {pl pl' pl'' : P → Place B} (h : Woken pl pl') (h' : Woken pl' pl'') :
    Woken pl pl'' where
  req p := (h'.req p).trans (h.req p)
  waits p := (h'.waits p).trans (h.waits p)
  buf p := (h'.buf p).trans (h.buf p)
  inside p := (h'.inside p).trans (h.inside p)
  awake p hp := (h'.awake p ((h.inside p).trans hp)).trans (h.awake p hp)

variable {x : Place B} {s : State P B}

theorem Place.req_of_waits {c : Req B} (h : x.waits = some c) : x.req = some c := by
  cases x <;> first | exact h | cases h

theorem Place.buf_of_req {c : Req B} (h : x.req = some c) : x.buf = some c.b := by
  cases x <;> cases h <;> rfl

theorem Place.eq_of_chan (h : x.chan ≠ none) :
    (∃ b blockno write, x = .alloc .asleep b blockno write) ∨ ∃ c, x = .wait .asleep c := by
  unfold Place.chan at h
  split at h
  · exact .inl ⟨_, _, _, rfl⟩
  · exact .inr ⟨_, rfl⟩
  · exact absurd rfl h

theorem wakeup_woken [DecidableEq B] (s : State P B) (chan : Chan B) :
    Woken s.place (wakeup s chan).place := by
  have hput : ∀ p, (wakeup s chan).place p = s.place p ∨
      (s.place p).chan ≠ none ∧ (wakeup s chan).place p = (s.place p).put .entering := by
    intro p
    simp only [wakeup]
    split
    · next h => exact .inr ⟨by rw [h]; simp, rfl⟩
    · exact .inl rfl
  have hsame : ∀ {α : Type} (f : Place B → α),
      (∀ b blockno write, f (.alloc .entering b blockno write) =
        f (.alloc .asleep b blockno write)) →
      (∀ c, f (.wait .entering c) = f (.wait .asleep c)) →
      ∀ p, f ((wakeup s chan).place p) = f (s.place p) := by
    intro α f halloc hwait p
    rcases hput p with h | ⟨hchan, h⟩
    · rw [h]
    · rw [h]
      rcases Place.eq_of_chan hchan with ⟨b, blockno, write, hp⟩ | ⟨c, hp⟩
      · rw [hp]
        exact halloc b blockno write
      · rw [hp]
        exact hwait c
  refine ⟨hsame _ (fun _ _ _ => rfl) fun _ => rfl, hsame _ (fun _ _ _ => rfl) fun _ => rfl,
    hsame _ (fun _ _ _ => rfl) fun _ => rfl, hsame _ (fun _ _ _ => rfl) fun _ => rfl, ?_⟩
  intro p hin
  rcases hput p with h | ⟨hchan, -⟩
  · exact h
  · rcases Place.eq_of_chan hchan with ⟨b, blockno, write, hp⟩ | ⟨c, hp⟩ <;>
    · rw [hp] at hin
      cases hin

/-! ## Freeing descriptors -/

structure Freed (s s' : State P B) (l : List (Fin NUM)) : Prop where
  free : ∀ i, s'.disk.free i = (s.disk.free i || decide (i ∈ l))
  desc : ∀ i, i ∉ l → s'.disk.desc i = s.disk.desc i
  disk : s'.disk = { s.disk with desc := s'.disk.desc, free := s'.disk.free }
  rest : s' = { s with disk := s'.disk, place := s'.place }
  woken : Woken s.place s'.place

theorem Freed.nil (s : State P B) : Freed s s [] where
  free i := by simp
  desc _ _ := rfl
  disk := rfl
  rest := rfl
  woken := .refl _

theorem Freed.append {s' s'' : State P B} {l l' : List (Fin NUM)} (h : Freed s s' l)
    (h' : Freed s' s'' l') : Freed s s'' (l ++ l') where
  free i := by
    rw [h'.free, h.free, Bool.or_assoc]
    simp
  desc i hi := by
    rw [List.mem_append, not_or] at hi
    rw [h'.desc i hi.2, h.desc i hi.1]
  disk := by
    rw [h'.disk, h.disk]
  rest := by
    rw [h'.rest, h.rest]
  woken := h.woken.trans h'.woken

theorem freeDesc_ok [DecidableEq B] {i : Fin NUM} (hi : s.disk.free i = false) :
    ∃ s', freeDesc s i = .ok s' ∧ Freed s s' [i] := by
  refine ⟨_, by rw [freeDesc, dif_pos i.isLt, if_neg (by simp [hi])], ?_⟩
  constructor
  · intro j
    simp only [wakeup]
    by_cases hj : j = i
    · simp [hj]
    · simp [hj]
  · intro j hj
    simp only [wakeup]
    rw [update_of_ne]
    simpa using hj
  · rfl
  · rfl
  · exact wakeup_woken _ _

theorem freeAll_ok [DecidableEq B] {l : List (Fin NUM)} (hnodup : l.Nodup)
    (hl : ∀ i ∈ l, s.disk.free i = false) : ∃ s', freeAll s l = .ok s' ∧ Freed s s' l := by
  induction l generalizing s with
  | nil => exact ⟨s, rfl, .nil s⟩
  | cons i l ih =>
    obtain ⟨s1, hs1, hfreed⟩ := freeDesc_ok (hl i List.mem_cons_self)
    rw [List.nodup_cons] at hnodup
    have hrest : ∀ j ∈ l, s1.disk.free j = false := by
      intro j hj
      have hne : j ≠ i := fun h => hnodup.1 (h ▸ hj)
      rw [hfreed.free, hl j (List.mem_cons_of_mem _ hj)]
      simp [hne]
    obtain ⟨s2, hs2, hfreed'⟩ := ih hnodup.2 hrest
    refine ⟨s2, ?_, hfreed.append hfreed'⟩
    rw [freeAll, hs1]
    exact hs2

/-! ## Allocating descriptors -/

def State.claim (s : State P B) (l : List (Fin NUM)) : State P B :=
  { s with disk := { s.disk with free := fun i => s.disk.free i && decide (i ∉ l) } }

theorem allocDesc_some {s' : State P B} {i : Fin NUM} (h : allocDesc s = some (i, s')) :
    s.disk.free i = true ∧ s' = s.claim [i] := by
  unfold allocDesc at h
  split at h
  · next j hj =>
    obtain ⟨rfl, rfl⟩ := Prod.mk.inj (Option.some.inj h)
    refine ⟨List.find?_some hj, ?_⟩
    have hfree : update s.disk.free j false =
        fun i => s.disk.free i && decide (i ∉ [j]) := by
      funext k
      by_cases hk : k = j
      · simp [hk]
      · simp [hk]
    rw [hfree]
    rfl
  · cases h

theorem State.claim_claim (s : State P B) (l l' : List (Fin NUM)) :
    (s.claim l).claim l' = s.claim (l ++ l') := by
  simp [State.claim, Bool.and_assoc]

/-- What comes out of `alloc3_desc` started in `s`: three descriptors that were free, or the
state with the same descriptors free as before. -/
inductive Alloc3 (s : State P B) : Option (List (Fin NUM)) × State P B → Prop
  | got (i₀ i₁ i₂ : Fin NUM) (hnodup : [i₀, i₁, i₂].Nodup)
      (hfree : ∀ i ∈ [i₀, i₁, i₂], s.disk.free i = true) :
      Alloc3 s (some [i₀, i₁, i₂], s.claim [i₀, i₁, i₂])
  | failed (l : List (Fin NUM)) (s' : State P B) (hfree : ∀ i ∈ l, s.disk.free i = true)
      (h : Freed (s.claim l) s' l) : Alloc3 s (none, s')

theorem alloc3Loop_ok [DecidableEq B] (s : State P B) (k : ℕ) (idx : List (Fin NUM))
    (hk : idx.length + k = 3)
    (hnodup : idx.Nodup) (hfree : ∀ i ∈ idx, s.disk.free i = true) :
    ∃ r, alloc3Loop k idx (s.claim idx) = .ok r ∧ Alloc3 s r := by
  induction k generalizing idx with
  | zero =>
    refine ⟨_, rfl, ?_⟩
    match idx, hk with
    | [i0, i1, i2], _ => exact .got i0 i1 i2 hnodup hfree
  | succ k ih =>
    rw [alloc3Loop]
    split
    · next i s' halloc =>
      obtain ⟨hi, rfl⟩ := allocDesc_some halloc
      simp only [State.claim, Bool.and_eq_true, decide_eq_true_eq] at hi
      rw [State.claim_claim]
      refine ih (idx ++ [i]) ?_ ?_ ?_
      · rw [List.length_append, List.length_singleton]
        omega
      · rw [List.nodup_append]
        refine ⟨hnodup, List.nodup_singleton i, ?_⟩
        intro j hj j' hj'
        rw [List.mem_singleton.mp hj']
        rintro rfl
        exact hi.2 hj
      · intro j hj
        rcases List.mem_append.mp hj with hj | hj
        · exact hfree j hj
        · rw [List.mem_singleton.mp hj]
          exact hi.1
    · have htaken : ∀ i ∈ idx, (s.claim idx).disk.free i = false := by
        intro i hi
        simp [State.claim, hi]
      obtain ⟨s', hs', hfreed⟩ := freeAll_ok hnodup htaken
      refine ⟨(none, s'), ?_, .failed idx s' hfree hfreed⟩
      rw [hs']
      rfl

theorem alloc3Desc_ok [DecidableEq B] (s : State P B) : ∃ r, alloc3Desc s = .ok r ∧ Alloc3 s r := by
  have hclaim : s.claim [] = s := by simp [State.claim]
  have h := alloc3Loop_ok s 3 [] rfl List.nodup_nil (by simp)
  rwa [hclaim] at h

/-! ## The descriptors of a request -/

structure Linked (d : Disk B) (c : Req B) : Prop where
  desc₀ : d.desc c.i₀ = ⟨.op c.i₀, sizeofReq, VRING_DESC_F_NEXT, c.i₁⟩
  desc₁ : d.desc c.i₁ =
    ⟨.data c.b, BSIZE, (if c.write then 0 else VRING_DESC_F_WRITE) ||| VRING_DESC_F_NEXT, c.i₂⟩
  desc₂ : d.desc c.i₂ = ⟨.status c.i₀, 1, VRING_DESC_F_WRITE, 0⟩

structure Formatted (d : Disk B) (c : Req B) : Prop extends Linked d c where
  op : d.ops c.i₀ = c.op
  info : (d.info c.i₀).b = some c.b

section
variable {d d' : Disk B} {c : Req B}

theorem Req.nodup_iff : c.descs.Nodup ↔ (c.i₀ ≠ c.i₁ ∧ c.i₀ ≠ c.i₂) ∧ c.i₁ ≠ c.i₂ := by
  simp [Req.descs]

theorem Formatted.frame (h : Formatted d c) (hops : d'.ops c.i₀ = d.ops c.i₀)
    (hinfo : (d'.info c.i₀).b = (d.info c.i₀).b)
    (hdesc : ∀ i ∈ c.descs, d'.desc i = d.desc i) : Formatted d' c where
  op := hops.trans h.op
  info := hinfo.trans h.info
  desc₀ := (hdesc _ (by simp [Req.descs])).trans h.desc₀
  desc₁ := (hdesc _ (by simp [Req.descs])).trans h.desc₁
  desc₂ := (hdesc _ (by simp [Req.descs])).trans h.desc₂

theorem Disk.format_formatted (d : Disk B) (hc : c.descs.Nodup) : Formatted (d.format c) c := by
  obtain ⟨⟨h01, h02⟩, h12⟩ := Req.nodup_iff.mp hc
  refine ⟨⟨?_, ?_, ?_⟩, ?_, ?_⟩ <;>
    simp [Disk.format, update_of_ne h01, update_of_ne h02,
      update_of_ne h12]

theorem Disk.format_desc (d : Disk B) {i : Fin NUM} (hi : i ∉ c.descs) :
    (d.format c).desc i = d.desc i := by
  simp only [Req.descs, List.mem_cons, List.not_mem_nil, or_false, not_or] at hi
  simp [Disk.format, update_of_ne hi.1, update_of_ne hi.2.1,
    update_of_ne hi.2.2]

theorem Formatted.walk (h : Formatted d c) : d.walk c.i₀ = some (c.op, c.b, c.i₀) := by
  have hdir : (if c.op.type = VIRTIO_BLK_T_OUT then (0 : BitVec 16) else VRING_DESC_F_WRITE) =
      if c.write then 0 else VRING_DESC_F_WRITE := by
    unfold Req.op
    cases c.write
    · rfl
    · rfl
  simp only [BitVec.ofNat_eq_ofNat] at hdir
  simp [Disk.walk, h.desc₀, h.desc₁, h.desc₂, h.op, hdir]

end

theorem freeChain_ok [DecidableEq B] {s : State P B} {c : Req B} (hc : Linked s.disk c)
    (hnodup : c.descs.Nodup)
    (hfree : ∀ i ∈ c.descs, s.disk.free i = false) (n : ℕ) :
    ∃ s', freeChain (n + 3) s c.i₀ = .ok s' ∧ Freed s s' c.descs := by
  obtain ⟨⟨h01, h02⟩, h12⟩ := Req.nodup_iff.mp hnodup
  obtain ⟨s1, hs1, hf1⟩ := freeDesc_ok (hfree c.i₀ (by simp [Req.descs]))
  have hfree1 : s1.disk.free c.i₁ = false := by
    rw [hf1.free, hfree c.i₁ (by simp [Req.descs])]
    simp [h01.symm]
  obtain ⟨s2, hs2, hf2⟩ := freeDesc_ok hfree1
  have hfree2 : s2.disk.free c.i₂ = false := by
    rw [hf2.free, hf1.free, hfree c.i₂ (by simp [Req.descs])]
    simp [h02.symm, h12.symm]
  obtain ⟨s3, hs3, hf3⟩ := freeDesc_ok hfree2
  have hdesc1 : s1.disk.desc c.i₁ = s.disk.desc c.i₁ := hf1.desc _ (by simp [h01.symm])
  have hdesc2 : s2.disk.desc c.i₂ = s.disk.desc c.i₂ := by
    rw [hf2.desc _ (by simp [h12.symm]), hf1.desc _ (by simp [h02.symm])]
  refine ⟨s3, ?_, (hf1.append hf2).append hf3⟩
  have hnext1 : ((if c.write then 0 else VRING_DESC_F_WRITE) ||| VRING_DESC_F_NEXT) &&&
      VRING_DESC_F_NEXT ≠ 0 := by
    cases c.write <;> decide
  have hlast : freeChain (n + 1) s2 c.i₂ = .ok s3 := by
    rw [freeChain, hs3]
    refine (dif_pos c.i₂.isLt).trans ?_
    rw [Fin.eta, hdesc2, hc.desc₂]
    exact if_neg (not_not.mpr (by decide : VRING_DESC_F_WRITE &&& VRING_DESC_F_NEXT = 0))
  have hmid : freeChain (n + 2) s1 c.i₁ = .ok s3 := by
    rw [freeChain, hs2]
    refine (dif_pos c.i₁.isLt).trans ?_
    rw [Fin.eta, hdesc1, hc.desc₁]
    exact (if_pos hnext1).trans hlast
  rw [freeChain, hs1]
  refine (dif_pos c.i₀.isLt).trans ?_
  rw [Fin.eta, hc.desc₀]
  exact (if_pos (by decide : VRING_DESC_F_NEXT &&& VRING_DESC_F_NEXT ≠ 0)).trans hmid

/-! ## The chains in flight -/

/-- The requests that the processes have descriptors for. -/
structure Chains (req : P → Option (Req B)) (d : Disk B) : Prop where
  nodup : ∀ p c, req p = some c → c.descs.Nodup
  taken : ∀ p c, req p = some c → ∀ i ∈ c.descs, d.free i = false
  formatted : ∀ p c, req p = some c → Formatted d c
  disjoint : ∀ p q c c' i, req p = some c → req q = some c' → i ∈ c.descs → i ∈ c'.descs → p = q
  covered : ∀ i, d.free i = false → ∃ p c, req p = some c ∧ i ∈ c.descs

namespace Chains
variable {req req' : P → Option (Req B)} {d d' : Disk B} {p : P} {c : Req B}

theorem frame (h : Chains req d) (hreq : ∀ p, req' p = req p) (hfree : d'.free = d.free)
    (hformatted : ∀ p c, req p = some c → Formatted d c → Formatted d' c) : Chains req' d' := by
  obtain rfl : req' = req := funext hreq
  refine ⟨h.nodup, ?_, ?_, h.disjoint, ?_⟩
  · rw [hfree]
    exact h.taken
  · exact fun p c hp => hformatted p c hp (h.formatted p c hp)
  · rw [hfree]
    exact h.covered

theorem head_inj (h : Chains req d) {q : P} {c' : Req B} (hp : req p = some c)
    (hq : req q = some c') (hhead : c.i₀ = c'.i₀) : p = q ∧ c = c' := by
  have hpq : p = q := h.disjoint p q c c' c.i₀ hp hq (by simp [Req.descs])
    (by simp [Req.descs, hhead])
  refine ⟨hpq, ?_⟩
  rw [hpq, hq] at hp
  exact (Option.some.inj hp).symm

variable [DecidableEq P]

theorem add (h : Chains req d) (hp : req p = none) (hnodup : c.descs.Nodup)
    (hfree : ∀ i ∈ c.descs, d.free i = true)
    (hd' : d' = { d with free := fun i => d.free i && decide (i ∉ c.descs) }) :
    Chains (update req p (some c)) (d'.format c) := by
  have hother : ∀ q c', req q = some c' → ∀ i ∈ c'.descs, i ∉ c.descs := by
    intro q c' hq i hi hic
    have := h.taken q c' hq i hi
    rw [hfree i hic] at this
    cases this
  have hcases : ∀ q c', update req p (some c) q = some c' →
      q = p ∧ c' = c ∨ q ≠ p ∧ req q = some c' := by
    intro q c' hq
    by_cases hqp : q = p
    · rw [hqp, update_self] at hq
      exact .inl ⟨hqp, (Option.some.inj hq).symm⟩
    · rw [update_of_ne hqp] at hq
      exact .inr ⟨hqp, hq⟩
  have hfree' : ∀ i, (d'.format c).free i = (d.free i && decide (i ∉ c.descs)) := by
    intro i
    rw [hd']
    rfl
  constructor
  · intro q c' hq
    rcases hcases q c' hq with ⟨rfl, rfl⟩ | ⟨_, hq⟩
    · exact hnodup
    · exact h.nodup q c' hq
  · intro q c' hq i hi
    rw [hfree']
    rcases hcases q c' hq with ⟨rfl, rfl⟩ | ⟨_, hq⟩
    · simp [hi]
    · simp [h.taken q c' hq i hi]
  · intro q c' hq
    rcases hcases q c' hq with ⟨rfl, rfl⟩ | ⟨_, hq⟩
    · exact d'.format_formatted hnodup
    · have hne : c'.i₀ ≠ c.i₀ := by
        intro heq
        exact hother q c' hq c'.i₀ (by simp [Req.descs]) (by simp [Req.descs, heq])
      refine (h.formatted q c' hq).frame ?_ ?_ ?_
      · rw [hd']
        exact update_of_ne hne _ _
      · rw [hd']
        exact congrArg Info.b (update_of_ne hne _ _)
      · intro i hi
        rw [d'.format_desc (hother q c' hq i hi), hd']
  · intro q q' c1 c2 i hq hq' hi hi'
    rcases hcases q c1 hq with ⟨hqp, hc1⟩ | ⟨_, hreq⟩ <;>
      rcases hcases q' c2 hq' with ⟨hqp', hc2⟩ | ⟨_, hreq'⟩
    · rw [hqp, hqp']
    · exact absurd (hc1 ▸ hi) (hother q' c2 hreq' i hi')
    · exact absurd (hc2 ▸ hi') (hother q c1 hreq i hi)
    · exact h.disjoint q q' c1 c2 i hreq hreq' hi hi'
  · intro i hi
    rw [hfree'] at hi
    by_cases hic : i ∈ c.descs
    · exact ⟨p, c, update_self .., hic⟩
    · obtain ⟨q, c', hq, hi'⟩ := h.covered i (by simpa [hic] using hi)
      have hqp : q ≠ p := by
        rintro rfl
        rw [hp] at hq
        cases hq
      exact ⟨q, c', by rw [update_of_ne hqp]; exact hq, hi'⟩

theorem remove (h : Chains req d) (hp : req p = some c)
    (hfree : ∀ i, d'.free i = (d.free i || decide (i ∈ c.descs)))
    (hformatted : ∀ q c', q ≠ p → req q = some c' → Formatted d c' → Formatted d' c') :
    Chains (update req p none) d' := by
  have hcases : ∀ q c', update req p none q = some c' → q ≠ p ∧ req q = some c' := by
    intro q c' hq
    by_cases hqp : q = p
    · rw [hqp, update_self] at hq
      cases hq
    · rw [update_of_ne hqp] at hq
      exact ⟨hqp, hq⟩
  constructor
  · exact fun q c' hq => h.nodup q c' (hcases q c' hq).2
  · intro q c' hq i hi
    obtain ⟨hqp, hq⟩ := hcases q c' hq
    have hic : i ∉ c.descs := fun hic => hqp (h.disjoint q p c' c i hq hp hi hic)
    rw [hfree, h.taken q c' hq i hi]
    simp [hic]
  · intro q c' hq
    obtain ⟨hqp, hq⟩ := hcases q c' hq
    exact hformatted q c' hqp hq (h.formatted q c' hq)
  · intro q q' c1 c2 i hq hq'
    exact h.disjoint q q' c1 c2 i (hcases q c1 hq).2 (hcases q' c2 hq').2
  · intro i hi
    rw [hfree, Bool.or_eq_false_iff, decide_eq_false_iff_not] at hi
    obtain ⟨q, c', hq, hi'⟩ := h.covered i hi.1
    have hqp : q ≠ p := by
      rintro rfl
      rw [hp] at hq
      cases hq
      exact hi.2 hi'
    exact ⟨q, c', by rw [update_of_ne hqp]; exact hq, hi'⟩

end Chains
end
end Xv6.Virtio
