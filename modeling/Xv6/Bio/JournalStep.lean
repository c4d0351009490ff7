import Xv6.Bio.JournalInv

/-! # The steps keep the invariant -/

namespace Xv6.Bio.Journal
set_option autoImplicit false
open Function (update update_self update_of_ne update_eq_self comp_update)

variable {c : Layout} {s s' : State} {p q : Proc} {b : BufId} {pc : Pc}

theorem State.ref_go (s : State) (p : Proc) (pc : Pc) :
    (s.go p pc).ref = update s.ref p pc.ref :=
  comp_update Pc.ref s.pc p pc

theorem State.go_pc_self (s : State) (p : Proc) (pc : Pc) : (s.go p pc).pc p = pc :=
  update_self _ _ _

def Pc.isFill : Pc → Bool
  | fill _ _ _ => true
  | _ => false

/-! ## Parts that most steps keep -/

theorem LogOk.go (h : LogOk c s) (hlog : s'.log = s.log) (hops : s'.inOp = s.inOp)
    (hun : s.log.committing = false → s'.unpinned = 0) (hpc : s'.pc = update s.pc p pc)
    (hcommits : pc.commits = (s.pc p).commits) : LogOk c s' := by
  have hsame : ∀ q, (s'.pc q).commits = (s.pc q).commits := by
    intro q
    rw [hpc]
    by_cases hq : q = p
    · rw [hq, update_self, hcommits]
    · rw [update_of_ne hq]
  refine ⟨?_, ?_, ?_, ?_, ?_, ?_, ?_, ?_, ?_⟩
  · rw [hlog]
    exact h.nodup
  · rw [hlog]
    exact h.home
  · rw [hlog]
    exact h.size
  · rw [hlog]
    exact h.length
  · rw [hlog, hops]
    exact h.ops
  · rw [hlog]
    exact h.quiet
  · rw [hlog]
    exact hun
  · intro q
    rw [hsame, hlog]
    exact h.commits q
  · intro q r
    rw [hsame, hsame]
    exact h.one q r

namespace Inv

theorem owed_of_lock (hlock : s.lock b = some p) : 0 < s.owed b := by
  have hne : s.lock b ≠ none := by
    rw [hlock]
    exact Option.some_ne_none p
  rw [State.owed, Bio.owed, if_neg hne]
  omega

theorem owed_of_ref (href : (s.pc p).ref = some b) : 0 < s.owed b := by
  have hpos : 0 < countOf s.ref b := countOf_pos href
  rw [State.owed, Bio.owed]
  omega

theorem owed_of_pins (hpins : 0 < s.pins b) : 0 < s.owed b := by
  rw [State.owed, Bio.owed]
  omega

theorem valid_of_held (h : Inv c s) (hlock : s.lock b = some p) (hp : (s.pc p).isFill = false) :
    (s.cache.buf b).valid = true := by
  rcases (h.held b p hlock).2 with hv | ⟨m, ret, hfill⟩
  · exact hv
  · rw [hfill] at hp
    cases hp

theorem unique (h : Inv c s) {a a' : BufId} {m : ℕ} (ha : s.cache.Holds a c.dev m)
    (ha' : s.cache.Holds a' c.dev m) : a = a' := by
  obtain ⟨l, hok⟩ := h.ok
  apply hok.unique a' a
  · rw [ha'.1]
    exact c.dev_ne
  · rw [ha.1, ha'.1]
  · rw [ha.2, ha'.2]

theorem pins_of_holds (h : Inv c s) {m : ℕ} (hb : s.cache.Holds b c.dev m) (hm : m ∈ s.pinned) :
    s.pins b = 1 := by
  rw [h.pins b, pinsOf, if_pos]
  rw [hb.2]
  exact ⟨hb.1, hm⟩

end Inv

/-! ## What a step of one process leaves to the others -/

structure Kept (x y : Buf) : Prop where
  dev : x.dev = y.dev
  blockno : x.blockno = y.blockno
  valid : y.valid = true → x.valid = true

theorem Kept.holds {x : Cache} {a : BufId} {m : ℕ} (hk : Kept (x.buf a) (s.cache.buf a))
    (h : s.cache.Holds a c.dev m) : x.Holds a c.dev m :=
  ⟨hk.dev.trans h.1, hk.blockno.trans h.2⟩

theorem Kept.same {x y : Buf} (h : x.Same y) : Kept x y := ⟨h.dev, h.blockno, h.valid.trans⟩

/-- A step of `p` that leaves the buffers in use and the other processes alone. -/
structure StepOf (c : Layout) (s s' : State) (p : Proc) : Prop where
  kept : ∀ a, 0 < s.owed a → Kept (s'.cache.buf a) (s.cache.buf a)
  lock : ∀ a q, q ≠ p → (s'.lock a = some q ↔ s.lock a = some q)
  dirty : ∀ a q, q ≠ p → s.lock a = some q → s'.dirty a = s.dirty a
  shared : ∀ q, q ≠ p → (s.pc q).commits = true → s'.shared c = s.shared c

theorem StepOf.frame (h : StepOf c s s' p) (hq : q ≠ p) : Frame c s s' q := by
  refine ⟨fun a => ⟨(h.lock a q hq).mpr, ?_, ?_, h.dirty a q hq⟩, fun a => (h.lock a q hq).mp, ?_,
    h.shared q hq⟩
  · intro m hlock
    exact (h.kept a (Inv.owed_of_lock hlock)).holds
  · intro hlock
    exact (h.kept a (Inv.owed_of_lock hlock)).valid
  · intro a m href
    exact (h.kept a (Inv.owed_of_ref href)).holds

namespace Inv

section
variable (h : Inv c s)
include h

theorem ofStep (hs : StepOf c s s' p) (hpc : s'.pc = update s.pc p pc)
    (hok : ∃ l, s'.cache.Ok l s'.owed) (huint : ∀ b, (s'.cache.buf b).blockno < 4294967296)
    (hown : ∀ b, s'.lock b = some p → (s'.cache.buf b).dev = c.dev ∧
      ((s'.cache.buf b).valid = true ∨ ∃ m ret, pc = .fill b m ret))
    (hdata : ∀ b, (s'.cache.buf b).valid = true → (s'.cache.buf b).dev = c.dev →
      (s'.cache.buf b).data = s'.last (s'.cache.buf b).blockno)
    (hdisk : ∀ m, s'.disk c.dev m = s'.last m ∨ m ∈ s'.pinned ∨
      ∃ b, s'.dirty b = true ∧ s'.cache.Holds b c.dev m)
    (hdirty : ∀ b, s'.dirty b = true → (s'.cache.buf b).valid = true ∧ s'.lock b ≠ none)
    (hpins : ∀ b, s'.pins b = pinsOf c s'.pinned (s'.cache.buf b))
    (hcached : ∀ m ∈ s'.pinned, m ∉ s.pinned →
      ∃ b, s'.cache.Holds b c.dev m ∧ (s'.cache.buf b).valid = true) (hlog : LogOk c s')
    (hself : PcOk c s' p pc) : Inv c s' := by
  refine ⟨hok, huint, ?_, hdata, hdisk, hdirty, hpins, ?_, hlog, ?_⟩
  · intro b q hq
    rw [hpc]
    by_cases hqp : q = p
    · subst hqp
      rw [update_self]
      exact hown b hq
    · have hlock := (hs.lock b q hqp).mp hq
      have hk := hs.kept b (owed_of_lock hlock)
      rw [hk.dev, update_of_ne hqp]
      exact ⟨(h.held b q hlock).1, (h.held b q hlock).2.imp_left hk.valid⟩
  · intro m hm
    by_cases hold : m ∈ s.pinned
    · obtain ⟨a, ha, hv⟩ := h.cached m hold
      have hpin := h.pins_of_holds ha hold
      have hk := hs.kept a (owed_of_pins (by omega))
      exact ⟨a, hk.holds ha, hk.valid hv⟩
    · exact hcached m hm hold
  · intro q
    rw [hpc]
    by_cases hq : q = p
    · rw [hq, update_self]
      exact hself
    · rw [update_of_ne hq]
      exact (h.pcs q).frame rfl (hs.frame hq)

/-- A step of `p` that keeps the locks and which block each buffer holds. -/
theorem keep (hbuf : ∀ a, (s'.cache.buf a).dev = (s.cache.buf a).dev ∧
      (s'.cache.buf a).blockno = (s.cache.buf a).blockno ∧
      (s'.cache.buf a).valid = (s.cache.buf a).valid) (hlock : s'.lock = s.lock)
    (hpc : s'.pc = update s.pc p pc) (hfill : (s.pc p).isFill = false)
    (hdirty : ∀ a, s.lock a ≠ some p → s'.dirty a = s.dirty a)
    (hshared : ∀ q, q ≠ p → (s.pc q).commits = true → s'.shared c = s.shared c)
    (hok : ∃ l, s'.cache.Ok l s'.owed)
    (hdata : ∀ b, (s.cache.buf b).valid = true → (s.cache.buf b).dev = c.dev →
      (s'.cache.buf b).data = s'.last (s.cache.buf b).blockno)
    (hdisk : ∀ m, s'.disk c.dev m = s'.last m ∨ m ∈ s'.pinned ∨
      ∃ b, s'.dirty b = true ∧ s.cache.Holds b c.dev m)
    (hpins : ∀ b, s'.pins b = pinsOf c s'.pinned (s.cache.buf b))
    (hcached : ∀ m ∈ s'.pinned, m ∉ s.pinned →
      ∃ b, s.cache.Holds b c.dev m ∧ (s.cache.buf b).valid = true) (hlog : LogOk c s')
    (hself : PcOk c s' p pc) : Inv c s' := by
  have hk : ∀ a, Kept (s'.cache.buf a) (s.cache.buf a) := fun a =>
    ⟨(hbuf a).1, (hbuf a).2.1, (hbuf a).2.2.trans⟩
  refine h.ofStep ⟨fun a _ => hk a, ?_, ?_, hshared⟩ hpc hok ?_ ?_ ?_ ?_ ?_ ?_ ?_ hlog hself
  · intro a q _
    rw [hlock]
  · intro a q hq ha
    apply hdirty
    rw [ha]
    exact fun heq => hq (Option.some.inj heq)
  · intro b
    rw [(hk b).blockno]
    exact h.uint b
  · intro b hb
    rw [hlock] at hb
    exact ⟨(hk b).dev.trans (h.held b p hb).1, .inl ((hk b).valid (h.valid_of_held hb hfill))⟩
  · intro b hv hd
    rw [(hk b).blockno]
    exact hdata b ((hbuf b).2.2.symm.trans hv) ((hk b).dev.symm.trans hd)
  · intro m
    exact (hdisk m).imp_right (.imp_right fun ⟨b, hb, hm⟩ => ⟨b, hb, (hk b).holds hm⟩)
  · intro b hb
    rw [hlock]
    by_cases hbp : s.lock b = some p
    · rw [hbp]
      exact ⟨(hk b).valid (h.valid_of_held hbp hfill), Option.some_ne_none p⟩
    · rw [hdirty b hbp] at hb
      exact ⟨(hk b).valid (h.dirty b hb).1, (h.dirty b hb).2⟩
  · intro b
    rw [pinsOf_same (hk b).dev (hk b).blockno]
    exact hpins b
  · intro m hm hn
    obtain ⟨b, hb, hv⟩ := hcached m hm hn
    exact ⟨b, (hk b).holds hb, (hk b).valid hv⟩

/-! ## Steps that change a lock and the program counter -/

theorem move (lock : BufId → Option Proc)
    (howed : Bio.owed (update s.ref p pc.ref) lock s.pins = s.owed)
    (hlock : ∀ b q, q ≠ p → (lock b = some q ↔ s.lock b = some q))
    (hdirty : ∀ b, s.dirty b = true → lock b ≠ none)
    (hheld : ∀ b, lock b = some p → (s.cache.buf b).dev = c.dev ∧
      ((s.cache.buf b).valid = true ∨ ∃ m ret, pc = .fill b m ret))
    (hcommits : pc.commits = (s.pc p).commits)
    (hpc : PcOk c ({ s with lock := lock }.go p pc) p pc) :
    Inv c ({ s with lock := lock }.go p pc) := by
  refine h.ofStep ⟨fun _ _ => ⟨rfl, rfl, id⟩, hlock, fun _ _ _ _ => rfl, fun _ _ _ => rfl⟩ rfl ?_
    h.uint hheld h.data h.disk ?_ h.pins (fun m hm hn => absurd hm hn)
    (h.log.go rfl rfl h.log.running rfl hcommits) hpc
  · rw [State.owed, State.ref_go]
    show ∃ l, s.cache.Ok l (Bio.owed (update s.ref p pc.ref) lock s.pins)
    rw [howed]
    exact h.ok
  · intro b hb
    exact ⟨(h.dirty b hb).1, hdirty b hb⟩

theorem moveTo (href : pc.ref = (s.pc p).ref) (hfill : (s.pc p).isFill = false)
    (hcommits : pc.commits = (s.pc p).commits) (hpc : PcOk c (s.go p pc) p pc) :
    Inv c (s.go p pc) := by
  refine h.move s.lock ?_ (fun _ _ _ => Iff.rfl) (fun b hb => (h.dirty b hb).2) ?_
    hcommits hpc
  · have hself : update s.ref p pc.ref = s.ref := by
      rw [href]
      exact update_eq_self p s.ref
    rw [hself]
    rfl
  · intro b hb
    exact ⟨(h.held b p hb).1, .inl (h.valid_of_held hb hfill)⟩

theorem waiting {m : ℕ} {ret : Bread} (hpc : s.pc p = .waiting b m ret) (hfree : s.lock b = none) :
    Inv c ({ s with lock := update s.lock b (some p) }.go p (.fill b m ret)) := by
  have hknow := h.pcs p
  rw [hpc] at hknow
  have hclean : s.dirty b = false := by
    cases hd : s.dirty b with
    | false => rfl
    | true => exact absurd hfree (h.dirty b hd).2
  have hself : (update s.lock b (some p)) b = some p := update_self _ _ _
  refine h.move _ ?_ ?_ ?_ ?_ (by rw [hpc]; rfl) ⟨hself, hknow.1, hclean, ?_⟩
  · apply owed_lock s.pins _ hfree
    rw [State.ref, hpc]
    rfl
  · intro b' q hq
    by_cases hb : b' = b
    · subst hb
      rw [update_self, hfree]
      simp [Ne.symm hq]
    · rw [update_of_ne hb]
  · intro b' hb'
    by_cases hb : b' = b
    · rw [hb, update_self]
      exact Option.some_ne_none p
    · rw [update_of_ne hb]
      exact (h.dirty b' hb').2
  · intro b' hb'
    by_cases hb : b' = b
    · subst hb
      exact ⟨hknow.1.1, .inr ⟨m, ret, rfl⟩⟩
    · rw [update_of_ne hb] at hb'
      exact ⟨(h.held b' p hb').1, .inl (h.valid_of_held hb' (by rw [hpc]; rfl))⟩
  · refine hknow.2.frame ?_ fun _ => rfl
    intro a _
    refine ⟨?_, fun _ _ hh => hh, fun _ hv => hv, fun _ => rfl⟩
    intro ha
    by_cases hab : a = b
    · rw [hab]
      exact hself
    · exact (update_of_ne hab _ _).trans ha

theorem unlock {ret : Brelse} (hpc : s.pc p = .unlock b ret) (hheld : s.lock b = some p) :
    Inv c ({ s with lock := update s.lock b none }.go p (.drop b ret)) := by
  have hknow := h.pcs p
  rw [hpc] at hknow
  obtain ⟨hclean, hother, hret⟩ := hknow
  refine h.move _ ?_ ?_ ?_ ?_ (by rw [hpc]; rfl) ?_
  · apply owed_unlock s.pins _ hheld
    rw [State.ref, hpc]
    rfl
  · intro b' q hq
    by_cases hb : b' = b
    · subst hb
      rw [update_self, hheld]
      simp [Ne.symm hq]
    · rw [update_of_ne hb]
  · intro b' hb'
    by_cases hb : b' = b
    · rw [hb, hclean hheld] at hb'
      cases hb'
    · rw [update_of_ne hb]
      exact (h.dirty b' hb').2
  · intro b' hb'
    by_cases hb : b' = b
    · rw [hb, update_self] at hb'
      cases hb'
    · rw [update_of_ne hb] at hb'
      exact ⟨(h.held b' p hb').1, .inl (h.valid_of_held hb' (by rw [hpc]; rfl))⟩
  · refine BrelseOk.frame hret ?_ fun _ => rfl
    intro a ha
    refine ⟨?_, fun _ _ hh => hh, fun _ hv => hv, fun _ => rfl⟩
    have hab : a ≠ b := by
      rintro rfl
      exact hother ha
    exact (update_of_ne hab _ _).trans

/-! ## Steps on the cache -/

theorem recache {x : Cache} (hsame : ∀ a, (x.buf a).Same (s.cache.buf a))
    (hok : ∃ l, x.Ok l (Bio.owed (update s.ref p pc.ref) s.lock s.pins))
    (hfill : (s.pc p).isFill = false) (hcommits : pc.commits = (s.pc p).commits)
    (hpc : PcOk c ({ s with cache := x }.go p pc) p pc) :
    Inv c ({ s with cache := x }.go p pc) := by
  refine h.keep (fun a => ⟨(hsame a).dev, (hsame a).blockno, (hsame a).valid⟩) rfl rfl hfill
    (fun _ _ => rfl) (fun _ _ _ => rfl) ?_ ?_ h.disk h.pins (fun m hm hn => absurd hm hn)
    (h.log.go rfl rfl h.log.running rfl hcommits) hpc
  · rw [State.owed, State.ref_go]
    exact hok
  · intro a hv hd
    exact (hsame a).data.trans (h.data a hv hd)

theorem bget {m : ℕ} {ret : Bread} {x : Cache} (hpc : s.pc p = .bget m ret)
    (hget : s.cache.bget c.dev m = .ok (b, x)) :
    Inv c ({ s with cache := x }.go p (.waiting b m ret)) := by
  obtain ⟨l, hok⟩ := h.ok
  have hknow := h.pcs p
  rw [hpc] at hknow
  obtain ⟨hok', hholds⟩ := hok.bget hget
  have href : s.ref p = none := by
    rw [State.ref, hpc]
    rfl
  have hframe : ∀ a, 0 < s.owed a → (x.buf a).Same (s.cache.buf a) := fun a ha =>
    hok.bget_frame hget (.inr ha)
  have howed : Bio.owed (update s.ref p (some b)) s.lock s.pins =
      update s.owed b (s.owed b + 1) := owed_get s.pins s.lock href
  have hok'' : ∃ l, x.Ok l (Bio.owed (update s.ref p (some b)) s.lock s.pins) :=
    ⟨l, by rw [howed]; exact hok'⟩
  have hself : PcOk c ({ s with cache := x }.go p (.waiting b m ret)) p (.waiting b m ret) := by
    refine ⟨hholds, hknow.2.frame ?_ fun _ => rfl⟩
    intro a _
    refine ⟨id, ?_, ?_, fun _ => rfl⟩
    · intro m' hlock
      exact (Kept.same (hframe a (owed_of_lock hlock))).holds
    · intro hlock
      exact (hframe a (owed_of_lock hlock)).valid.trans
  rcases hok.bget_cases hget with ⟨-, rfl⟩ | hmiss
  · exact h.recache (s.cache.bpin_same b) hok'' (by rw [hpc]; rfl) (by rw [hpc]; rfl) hself
  · have hunused := hok.unused_of_miss hmiss
    have hinvalid : (x.buf b).valid = false := by
      rw [hmiss.eq, Cache.set_buf_self]
    have hother : ∀ a, a ≠ b → (x.buf a).Same (s.cache.buf a) := fun a ha =>
      hok.bget_frame hget (.inl ha)
    have habsent : m ∉ s.pinned := by
      intro hm
      obtain ⟨a, ha, -⟩ := h.cached m hm
      exact hmiss.absent a ha
    have hnopins : s.pins b = 0 := by
      by_contra hne
      have := owed_of_pins (Nat.pos_of_ne_zero hne)
      omega
    refine h.ofStep ⟨fun a ha => .same (hframe a ha), fun _ _ _ => Iff.rfl,
      fun _ _ _ _ => rfl, fun _ _ _ => rfl⟩ rfl ?_ ?_ ?_ ?_ ?_ ?_ ?_ (fun m' hm hn => absurd hm hn)
      (h.log.go rfl rfl h.log.running rfl (by rw [hpc]; rfl)) hself
    · rw [State.owed, State.ref_go]
      exact hok''
    · intro a
      show (x.buf a).blockno < _
      by_cases ha : a = b
      · rw [ha, hholds.2]
        exact hknow.1
      · rw [(hother a ha).blockno]
        exact h.uint a
    · intro a ha
      have hk := hframe a (owed_of_lock ha)
      exact ⟨hk.dev.trans (h.held a p ha).1,
        .inl (hk.valid.trans (h.valid_of_held ha (by rw [hpc]; rfl)))⟩
    · intro a hv hd
      have hab : a ≠ b := by
        rintro rfl
        rw [show (State.go { s with cache := x } p (.waiting a m ret)).cache.buf a =
          x.buf a from rfl,
          hinvalid] at hv
        cases hv
      show (x.buf a).data = s.last (x.buf a).blockno
      rw [(hother a hab).data, (hother a hab).blockno]
      exact h.data a ((hother a hab).valid.symm.trans hv) ((hother a hab).dev.symm.trans hd)
    · intro m'
      rcases h.disk m' with hm | hm | ⟨a, ha, hm⟩
      · exact .inl hm
      · exact .inr (.inl hm)
      · obtain ⟨q, hq⟩ := Option.ne_none_iff_exists'.mp (h.dirty a ha).2
        exact .inr (.inr ⟨a, ha, (Kept.same (hframe a (owed_of_lock hq))).holds hm⟩)
    · intro a ha
      obtain ⟨q, hq⟩ := Option.ne_none_iff_exists'.mp (h.dirty a ha).2
      exact ⟨(hframe a (owed_of_lock hq)).valid.trans (h.dirty a ha).1, (h.dirty a ha).2⟩
    · intro a
      by_cases ha : a = b
      · subst ha
        show s.pins a = pinsOf c s.pinned (x.buf a)
        rw [hnopins, pinsOf, if_neg]
        intro hc
        rw [hholds.2] at hc
        exact habsent hc.2
      · exact (h.pins a).trans (pinsOf_same (hother a ha).dev.symm (hother a ha).blockno.symm)

end

end Inv

/-! ## The ends of `bread` and `brelse` -/

theorem State.block_eq {tail : ℕ} (h : tail < s.log.lh.length) :
    s.log.lh[tail]? = some (s.block tail) := by
  rw [State.block, List.getD_eq_getElem?_getD, List.getElem?_eq_getElem h, Option.getD_some]

theorem LogOk.block_lt (h : LogOk c s) {tail m : ℕ} (hm : s.log.lh[tail]? = some m) :
    c.Home m ∧ m < 4294967296 :=
  h.home m (List.mem_of_getElem? hm)

theorem BreadOk.next {m : ℕ} {ret : Bread} (h : BreadOk c s p m ret) (hlog : LogOk c s)
    (hb : Clean c s p b m) : PcOk c s p (ret.next s b) := by
  cases ret with
  | user => trivial
  | logTo tail | instLog tail =>
    obtain ⟨rfl, htail, hst⟩ := h
    have hblock := State.block_eq htail
    exact ⟨(hlog.block_lt hblock).2, hblock, hb, hst⟩
  | logFrom tail dst | instDst tail dst =>
    obtain ⟨hm, hdst, hst⟩ := h
    exact ⟨hdst, ⟨m, hm, hb⟩, hst⟩
  | head clear =>
    obtain ⟨rfl, hst⟩ := h
    exact ⟨hb, hst⟩

theorem Bread.next_ref (s : State) (b : BufId) (ret : Bread) : (ret.next s b).ref = none := by
  cases ret <;> rfl

theorem Bread.next_commits (s : State) (b : BufId) (ret : Bread) :
    (ret.next s b).commits = ret.commits := by
  cases ret <;> rfl

theorem BrelseOk.next {ret : Brelse} (h : BrelseOk c s p ret) : PcOk c s p ret.next := by
  cases ret with
  | user => trivial
  | logFrom tail dst => exact ⟨fun _ => h.1.clean, by simp [Brelse.other], h.2⟩
  | instLog tail dbuf =>
    obtain ⟨⟨m, hclean⟩, hst⟩ := h
    exact ⟨fun _ => hclean.clean, by simp [Brelse.other], hst⟩
  | logTo tail | instDst tail => exact h
  | head clear => cases clear <;> exact h

theorem Brelse.next_ref (ret : Brelse) : ret.next.ref = none := by
  cases ret with
  | head clear => cases clear <;> rfl
  | _ => rfl

theorem Brelse.next_commits (ret : Brelse) : ret.next.commits = ret.commits := by
  cases ret with
  | head clear => cases clear <;> rfl
  | _ => rfl

namespace Inv

theorem disk_of_invalid (h : Inv c s) {m : ℕ} (hb : s.cache.Holds b c.dev m)
    (hv : (s.cache.buf b).valid = false) : s.disk c.dev m = s.last m := by
  have hinvalid : ∀ a, s.cache.Holds a c.dev m → (s.cache.buf a).valid = true → False := by
    intro a ha hva
    rw [h.unique ha hb, hv] at hva
    cases hva
  rcases h.disk m with hm | hm | ⟨a, ha, hm⟩
  · exact hm
  · obtain ⟨a, ha, hva⟩ := h.cached m hm
    exact (hinvalid a ha hva).elim
  · exact (hinvalid a hm (h.dirty a ha).1).elim

theorem fill {m : ℕ} {ret : Bread} (h : Inv c s) (hpc : s.pc p = .fill b m ret) :
    Inv c ({ s with cache := s.cache.fill s.disk b }.go p (ret.next s b)) := by
  have hknow := h.pcs p
  rw [hpc] at hknow
  obtain ⟨hlock, hholds, hclean, hret⟩ := hknow
  have hbuf := Cache.fill_buf s.cache s.disk b
  have hother := fun (a : BufId) (ha : a ≠ b) => Cache.fill_same_of_ne s.cache s.disk ha
  obtain ⟨hvalid, hdata⟩ := Cache.fill_self s.cache s.disk b
  have hkept : ∀ a, Kept ((s.cache.fill s.disk b).buf a) (s.cache.buf a) := by
    intro a
    refine ⟨(hbuf a).1, (hbuf a).2.1, ?_⟩
    by_cases ha : a = b
    · rw [ha]
      exact fun _ => hvalid
    · exact (hother a ha).valid.trans
  have hlast : ((s.cache.fill s.disk b).buf b).data = s.last m := by
    rw [hdata]
    split_ifs with hv
    · rw [← hholds.2]
      exact h.data b hv hholds.1
    · rw [hholds.1, hholds.2]
      exact h.disk_of_invalid hholds (by simpa using hv)
  have hlog : LogOk c ({ s with cache := s.cache.fill s.disk b }.go p (ret.next s b)) :=
    h.log.go rfl rfl h.log.running rfl (by rw [hpc, Bread.next_commits]; rfl)
  refine h.ofStep ⟨fun a _ => hkept a, fun _ _ _ => Iff.rfl, fun _ _ _ _ => rfl,
    fun _ _ _ => rfl⟩ rfl ?_ ?_ ?_ ?_ ?_ ?_ ?_ (fun m' hm hn => absurd hm hn) hlog ?_
  · obtain ⟨l, hok⟩ := h.ok
    refine ⟨l, ?_⟩
    have hself : update s.ref p none = s.ref := by
      have href : s.ref p = none := by
        rw [State.ref, hpc]
        rfl
      rw [← href]
      exact update_eq_self p s.ref
    rw [State.owed, State.ref_go, Bread.next_ref]
    show (s.cache.fill s.disk b).Ok l (Bio.owed (update s.ref p none) s.lock s.pins)
    rw [hself]
    exact hok.fill s.disk b
  · intro a
    exact lt_of_eq_of_lt (hbuf a).2.1 (h.uint a)
  · intro a ha
    refine ⟨(hbuf a).1.trans (h.held a p ha).1, .inl ?_⟩
    rcases (h.held a p ha).2 with hv | ⟨m', ret', hfill⟩
    · exact (hkept a).valid hv
    · rw [hpc] at hfill
      cases hfill
      exact hvalid
  · intro a hv hd
    show ((s.cache.fill s.disk b).buf a).data = s.last ((s.cache.fill s.disk b).buf a).blockno
    rw [(hbuf a).2.1]
    by_cases ha : a = b
    · subst ha
      rw [hlast, hholds.2]
    · rw [(hother a ha).data]
      exact h.data a ((hother a ha).valid.symm.trans hv) ((hbuf a).1.symm.trans hd)
  · intro m'
    exact (h.disk m').imp_right (.imp_right fun ⟨a, ha, hm⟩ => ⟨a, ha, (hkept a).holds hm⟩)
  · intro a ha
    exact ⟨(hkept a).valid (h.dirty a ha).1, (h.dirty a ha).2⟩
  · intro a
    exact (h.pins a).trans (pinsOf_same (hbuf a).1.symm (hbuf a).2.1.symm)
  · have hret' : BreadOk c ({ s with cache := s.cache.fill s.disk b }.go p (ret.next s b)) p
      m ret :=
      hret.frame (fun a _ => ⟨id, fun m _ => (hkept a).holds, fun _ => (hkept a).valid,
        fun _ => rfl⟩) fun _ => rfl
    exact hret'.next hlog ⟨⟨hlock, (hkept b).holds hholds, hvalid⟩, hclean⟩

theorem drop {ret : Brelse} (h : Inv c s) (hpc : s.pc p = .drop b ret) :
    Inv c ({ s with cache := s.cache.brelse b }.go p ret.next) := by
  have hknow : BrelseOk c s p ret := by
    have := h.pcs p
    rwa [hpc] at this
  have href : s.ref p = some b := by
    rw [State.ref, hpc]
    rfl
  obtain ⟨hpos, hdrop⟩ := owed_drop s.pins s.lock href
  obtain ⟨l, hok⟩ := h.ok
  have hsame := s.cache.brelse_same b
  refine h.recache hsame ?_ (by rw [hpc]; rfl) (by rw [hpc, Brelse.next_commits]; rfl) ?_
  · refine ⟨if s.owed b = 1 then b :: l.erase b else l, ?_⟩
    rw [Brelse.next_ref, hdrop]
    exact hok.brelse hpos
  · have hret : BrelseOk c ({ s with cache := s.cache.brelse b }.go p ret.next) p ret :=
      hknow.frame (fun a _ => ⟨id, fun m _ => (Kept.same (hsame a)).holds,
        fun _ => (hsame a).valid.trans, fun _ => rfl⟩) fun _ => rfl
    exact hret.next

end Inv
end Xv6.Bio.Journal
