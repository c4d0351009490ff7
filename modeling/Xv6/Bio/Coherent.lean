import Xv6.Bio.JournalLog

/-! # The cache and the log are coherent

Every `bread` returns the data of the last modification of its block, and a home block is written
only when the header on the disk lists it.
-/

namespace Xv6.Bio.Journal
set_option autoImplicit false
open Function (update update_self update_of_ne)
open Outcome (bind_eq_ok result_eq_some)

variable {c : Layout} {s s' : State} {p q : Proc} {b : BufId} {pc : Pc} {e : Event}

/-! ## The steps of `commit` -/

namespace Inv

theorem knows (h : Inv c s) (hpc : s.pc p = pc) : PcOk c s p pc := by
  rw [← hpc]
  exact h.pcs p

theorem quiet (h : Inv c s) (hpc : s.pc p = pc) (hcommits : pc.commits = true) (q : Proc)
    (hq : q ≠ p) : (s.pc q).commits = false :=
  h.log.others (by rw [hpc]; exact hcommits) hq

theorem start_lt (c : Layout) : c.start < 4294967296 := by
  have := c.fits
  have := c.size_pos
  omega

variable {m tail : ℕ}

theorem log_lt (h : Inv c s) (htail : tail < s.log.lh.length) :
    c.start + tail + 1 < 4294967296 := by
  have := c.fits
  have := h.log.length
  omega

theorem clean_setData {a : BufId} {data : Block} (ha : HeldBy c s p a m)
    (hs' : s'.cache = s.cache.setData b data) (hlock : s'.lock = s.lock) : HeldBy c s' p a m := by
  refine ⟨by rw [hlock]; exact ha.lock, ?_, ?_⟩
  · rw [hs']
    exact setData_holds ha.holds
  · rw [hs', (s.cache.setData_buf b data a).2.2]
    exact ha.valid

section
variable (h : Inv c s)
include h

theorem log_ne {dst src : BufId} (hm : s.log.lh[tail]? = some m)
    (hdst : s.cache.Holds dst c.dev (c.start + tail + 1)) (hsrc : s.cache.Holds src c.dev m) :
    dst ≠ src ∧ c.start + tail + 1 ≠ m := by
  have htail : tail < s.log.lh.length := by
    by_contra hge
    rw [List.getElem?_eq_none (by omega)] at hm
    cases hm
  have hne : c.start + tail + 1 ≠ m := by
    intro heq
    apply h.log.not_home htail
    rw [heq]
    exact (h.log.block_lt hm).1
  refine ⟨?_, hne⟩
  rintro rfl
  exact hne (hdst.2.symm.trans hsrc.2)

theorem start_ne (hm : s.log.lh[tail]? = some m) : m ≠ c.start := by
  rintro rfl
  exact c.start_not_home (h.log.block_lt hm).1

theorem writeLog (hpc : s.pc p = .writeLog tail) (hs : pcStep c p s (.writeLog tail) = .ok s') :
    Inv c s' := by
  obtain ⟨hun, hcopied⟩ := h.knows hpc
  simp only [pcStep] at hs
  split_ifs at hs with htail <;> cases hs
  · exact h.moveTo (by rw [hpc]; rfl) (by rw [hpc]; rfl) (by rw [hpc]; rfl)
      ⟨h.log_lt htail, rfl, htail, hun, hcopied⟩
  · refine h.moveTo (by rw [hpc]; rfl) (by rw [hpc]; rfl) (by rw [hpc]; rfl)
      ⟨start_lt c, rfl, hun, ?_⟩
    intro i m hi
    have hi : i < s.log.lh.length := hi
    exact hcopied i m (by omega)

theorem writeLogCopy {dst src : BufId} (hpc : s.pc p = .writeLogCopy tail dst src) :
    Inv c ((s.modify dst (s.cache.buf src).data).go p (.writeLogWrite tail dst src)) := by
  obtain ⟨hdst, ⟨m, hm, hsrc⟩, hun, hcopied⟩ := h.knows hpc
  obtain ⟨hne, hblock⟩ := h.log_ne hm hdst.holds hsrc.holds
  have hdata : (s.cache.buf src).data = s.last m := by
    rw [h.data src hsrc.valid hsrc.holds.1, hsrc.holds.2]
  refine h.modify hdst.lock (by rw [hpc]; rfl) _ (by rw [State.ref, hpc]; rfl) (by rw [hpc]; rfl)
    (h.quiet hpc rfl) ⟨clean_setData hdst.toHeldBy rfl rfl, ⟨m, hm, ?_, ?_⟩, hun, ?_⟩
  · exact clean_setData hsrc.toHeldBy rfl rfl
  · exact (update_of_ne hne.symm _ _).trans hsrc.clean
  · intro i m' hi hm'
    show update s.last (s.cache.buf dst).blockno (s.cache.buf src).data (c.start + i + 1) =
      update s.last (s.cache.buf dst).blockno (s.cache.buf src).data m'
    have hhome : m' ≠ c.start + tail + 1 := by
      rintro rfl
      have htail : tail < s.log.lh.length := (List.getElem?_eq_some_iff.mp hm).1
      exact h.log.not_home htail (h.log.block_lt hm').1
    rw [hdst.holds.2, update_of_ne hhome, hdata]
    by_cases hit : i = tail
    · subst hit
      have hm' : s.log.lh[i]? = some m' := hm'
      rw [hm] at hm'
      rw [update_self, Option.some.inj hm']
    · rw [update_of_ne (by omega)]
      exact hcopied i m' (by omega) hm'

theorem writeLogWrite {dst src : BufId} (hpc : s.pc p = .writeLogWrite tail dst src) :
    Inv c ((s.diskWrite dst).go p (.unlock src (.logFrom tail dst))) := by
  obtain ⟨hdst, ⟨m, hm, hsrc⟩, hst⟩ := h.knows hpc
  obtain ⟨hne, -⟩ := h.log_ne hm hdst.holds hsrc.holds
  refine h.diskWrite hdst.lock (by rw [hpc]; rfl) (by rw [State.ref, hpc]; rfl) (by rw [hpc]; rfl)
    (h.quiet hpc rfl) ⟨?_, ?_, ⟨⟨hdst.lock, hdst.holds, hdst.valid⟩, ?_⟩, hst⟩
  · intro _
    exact (update_of_ne hne.symm _ _).trans hsrc.clean
  · intro heq
    exact hne (Option.some.inj heq)
  · exact update_self _ _ _

theorem headStore {clear : Bool} (hpc : s.pc p = .headStore clear b) :
    Inv c ((s.modify b (writeHead (s.cache.buf b).data s.log.lh)).go p (.headWrite clear b)) := by
  obtain ⟨hb, hready⟩ := h.knows hpc
  have hlast : ((s.modify b (writeHead (s.cache.buf b).data s.log.lh)).go p
      (.headWrite clear b)).last =
      update s.last c.start (writeHead (s.cache.buf b).data s.log.lh) := by
    show update s.last (s.cache.buf b).blockno _ = _
    rw [hb.holds.2]
  refine h.modify hb.lock (by rw [hpc]; rfl) _ (by rw [State.ref, hpc]; rfl) (by rw [hpc]; rfl)
    (h.quiet hpc rfl) ⟨clean_setData hb.toHeldBy rfl rfl, ?_, ?_⟩
  · cases clear with
    | true => exact hready
    | false =>
      refine ⟨hready.1, ?_⟩
      intro i m hi hm
      refine (congrFun hlast _).trans (Eq.trans ?_ (congrFun hlast m).symm)
      rw [update_of_ne (by omega), update_of_ne (h.start_ne hm)]
      exact hready.2 i m hi hm
  · rw [hlast, update_self]
    exact readHead_writeHead _ _ h.log.length.1 fun m hm => (h.log.home m hm).2

theorem headWrite {clear : Bool} (hpc : s.pc p = .headWrite clear b) :
    Inv c ((s.diskWrite b).go p (.unlock b (.head clear))) := by
  obtain ⟨hb, hready, hhead⟩ := h.knows hpc
  refine h.diskWrite hb.lock (by rw [hpc]; rfl) (by rw [State.ref, hpc]; rfl) (by rw [hpc]; rfl)
    (h.quiet hpc rfl) ⟨fun _ => update_self _ _ _, by simp [Brelse.other], ?_⟩
  cases clear with
  | true => exact hready
  | false =>
    refine ⟨hready.1, hready.2, ?_⟩
    have hself := h.diskWrite_self hb.lock (by rw [hpc]; rfl)
    rw [hb.holds.2] at hself
    show readHead ((s.diskWrite b).disk c.dev c.start) = s.log.lh
    rw [hself]
    exact hhead

theorem install (hpc : s.pc p = .install tail) (hs : pcStep c p s (.install tail) = .ok s') :
    Inv c s' := by
  have hst := h.knows hpc
  simp only [pcStep] at hs
  split_ifs at hs with htail <;> cases hs
  · exact h.moveTo (by rw [hpc]; rfl) (by rw [hpc]; rfl) (by rw [hpc]; rfl)
      ⟨h.log_lt htail, rfl, htail, hst⟩
  · refine h.moveTo (by rw [hpc]; rfl) (by rw [hpc]; rfl) (by rw [hpc]; rfl) ?_
    have hun : s.unpinned = tail := hst.1
    show s.log.lh.drop s.unpinned = []
    exact List.drop_eq_nil_of_le (by omega)

theorem installCopy {lbuf dbuf : BufId} (hpc : s.pc p = .installCopy tail lbuf dbuf) :
    Inv c ((s.setData dbuf (s.cache.buf lbuf).data).go p (.installWrite tail lbuf dbuf)) := by
  obtain ⟨hlog, ⟨m, hm, hdst⟩, hst⟩ := h.knows hpc
  have htail : tail < s.log.lh.length := (List.getElem?_eq_some_iff.mp hm).1
  refine h.setData (by rw [hpc]; rfl) ?_ (by rw [State.ref, hpc]; rfl) (by rw [hpc]; rfl)
    ⟨⟨clean_setData hlog.toHeldBy rfl rfl, hlog.clean⟩,
      ⟨m, hm, clean_setData hdst.toHeldBy rfl rfl, hdst.clean⟩, hst⟩
  rw [h.data lbuf hlog.valid hlog.holds.1, hlog.holds.2, hdst.holds.2]
  exact hst.2.1 tail m htail hm

theorem installWrite {lbuf dbuf : BufId} (hpc : s.pc p = .installWrite tail lbuf dbuf) :
    Inv c ((s.diskWrite dbuf).go p (.installUnpin tail lbuf dbuf)) := by
  obtain ⟨hlog, ⟨m, hm, hdst⟩, hun, hcopied, hhead⟩ := h.knows hpc
  obtain ⟨hne, -⟩ := h.log_ne hm hlog.holds hdst.holds
  have hself := h.diskWrite_self hdst.lock (by rw [hpc]; rfl)
  rw [hdst.holds.2] at hself
  have hstart : (s.diskWrite dbuf).disk c.dev c.start = s.disk c.dev c.start := by
    apply h.diskWrite_of_ne hdst.lock
    rw [hdst.holds.2]
    exact (h.start_ne hm).symm
  refine h.diskWrite hdst.lock (by rw [hpc]; rfl) (by rw [State.ref, hpc]; rfl) (by rw [hpc]; rfl)
    (h.quiet hpc rfl) ⟨⟨⟨hlog.lock, hlog.holds, hlog.valid⟩, ?_⟩,
      ⟨m, hm, ⟨⟨hdst.lock, hdst.holds, hdst.valid⟩, update_self _ _ _⟩, hself⟩, hun, hcopied, ?_⟩
  · exact (update_of_ne hne _ _).trans hlog.clean
  · show readHead ((s.diskWrite dbuf).disk c.dev c.start) = s.log.lh
    rw [hstart]
    exact hhead

end

/-! ## All steps -/

theorem bwrite_ok (hs : bwrite p b s = .ok s') : s' = s.diskWrite b := by
  unfold bwrite at hs
  split_ifs at hs
  cases hs
  rfl

theorem pcStep (h : Inv c s) (hs : pcStep c p s (s.pc p) = .ok s') : Inv c s' := by
  generalize hpc : s.pc p = pc at hs
  cases pc with
  | user => cases hs
  | bget m ret =>
    obtain ⟨⟨b, x⟩, hget, hs⟩ := bind_eq_ok hs
    cases hs
    exact h.bget hpc hget
  | waiting b m ret =>
    simp only [Journal.pcStep] at hs
    split_ifs at hs with hfree
    cases hs
    exact h.waiting hpc hfree
  | fill b m ret =>
    cases hs
    exact h.fill hpc
  | unlock b ret =>
    simp only [Journal.pcStep] at hs
    split_ifs at hs with hheld
    cases hs
    exact h.unlock hpc hheld
  | drop b ret =>
    cases hs
    exact h.drop hpc
  | writeLog tail => exact h.writeLog hpc hs
  | writeLogCopy tail dst src =>
    cases hs
    exact h.writeLogCopy hpc
  | writeLogWrite tail dst src =>
    obtain ⟨t, hw, hs⟩ := bind_eq_ok hs
    obtain rfl := bwrite_ok hw
    cases hs
    exact h.writeLogWrite hpc
  | headStore clear b =>
    cases hs
    exact h.headStore hpc
  | headWrite clear b =>
    obtain ⟨t, hw, hs⟩ := bind_eq_ok hs
    obtain rfl := bwrite_ok hw
    cases hs
    exact h.headWrite hpc
  | install tail => exact h.install hpc hs
  | installCopy tail lbuf dbuf =>
    cases hs
    exact h.installCopy hpc
  | installWrite tail lbuf dbuf =>
    obtain ⟨t, hw, hs⟩ := bind_eq_ok hs
    obtain rfl := bwrite_ok hw
    cases hs
    exact h.installWrite hpc
  | installUnpin tail lbuf dbuf =>
    cases hs
    exact h.installUnpin hpc
  | clear =>
    cases hs
    exact h.clear hpc
  | endCommit =>
    cases hs
    exact h.endCommit hpc

theorem userStep {e : Event} (h : Inv c s) (hp : s.pc e.proc = .user) (he : Proper c s e)
    (hs : userStep s e = .ok s') : Inv c s' := by
  cases e with
  | beginOp p =>
    simp only [Journal.userStep] at hs
    split_ifs at hs with hin
    split at hs
    · cases hs
    · next l hl =>
      cases hs
      exact h.beginOp hp (by simpa using hin) hl
  | endOp p =>
    simp only [Journal.userStep] at hs
    split_ifs at hs with hin
    exact h.endOp hp hin hs
  | bread p m =>
    cases hs
    have hp : s.pc p = .user := hp
    exact h.moveTo (by rw [hp]; rfl) (by rw [hp]; rfl) (by rw [hp]; rfl) ⟨he, trivial⟩
  | modify p b data =>
    cases hs
    have hp : s.pc p = .user := hp
    obtain ⟨hin, hlock, -⟩ := he
    obtain ⟨-, -, hquiet⟩ := h.log.none_commits (h.log.outstanding_pos hin)
    have hinv : Inv c ((s.modify b data).go p .user) :=
      h.modify hlock (by rw [hp]; rfl) data (by rw [State.ref, hp]) (by rw [hp])
        (fun q _ => hquiet q) trivial
    have hgo : (s.modify b data).go p .user = s.modify b data := State.go_eq_self hp
    rwa [hgo] at hinv
  | logWrite p b => exact h.logWrite hp he.1 he.2 hs
  | brelse p b =>
    cases hs
    have hp : s.pc p = .user := hp
    exact h.moveTo (by rw [hp]; rfl) (by rw [hp]; rfl) (by rw [hp]; rfl)
      ⟨fun _ => he, by simp [Brelse.other], trivial⟩
  | go p => cases hs

theorem step {e : Event} (h : Inv c s) (he : Proper c s e) (hs : step c s e = .ok s') :
    Inv c s' := by
  have huser : ∀ e, (if (s.pc e.proc).isUser then Journal.userStep s e else .blocked) = .ok s' →
      Proper c s e → Inv c s' := by
    intro e hs he
    split_ifs at hs with hp
    refine h.userStep ?_ he hs
    cases hpc : s.pc e.proc with
    | user => rfl
    | _ =>
      rw [hpc] at hp
      cases hp
  cases e with
  | go p => exact h.pcStep hs
  | beginOp | endOp | bread | modify | logWrite | brelse => exact huser _ hs he

end Inv

theorem inv_boot (k : Links BufId) (zero : Block) (disk : ℕ → ℕ → Block) :
    Inv c (boot c k zero disk) := by
  have howed : (boot c k zero disk).owed = fun _ => 0 := by
    funext b
    have hzero : countOf (boot c k zero disk).ref b = 0 := by
      rw [countOf_eq_zero]
      intro p h
      cases h
    rw [State.owed, Bio.owed, hzero]
    rfl
  refine ⟨⟨(List.finRange NBUF).reverse, ?_⟩, ?_, ?_, ?_, fun _ => .inl rfl, ?_, ?_, ?_, ?_,
    fun _ => trivial⟩
  · rw [howed]
    exact Cache.ok_binit k zero
  · intro b
    exact Nat.zero_lt_succ _
  · intro b p h
    cases h
  · intro b h
    cases h
  · intro b h
    cases h
  · intro b
    rw [pinsOf, if_neg]
    · rfl
    · intro h
      cases h.2
  · intro m h
    cases h
  · refine ⟨List.nodup_nil, ?_, rfl, ⟨Nat.zero_le _, Nat.zero_le _⟩, ?_, fun _ => rfl, fun _ => rfl,
      ?_, ?_⟩
    · intro m h
      cases h
    · rw [countOf_eq_zero.mpr]
      · rfl
      · intro p h
        cases h
    · intro p h
      cases h
    · intro p q h
      cases h

theorem inv_of_reachable (hs : ((sys c).restrict (Proper c)).Reachable s) : Inv c s := by
  refine hs.invariant ?_ ?_
  · rintro s ⟨k, zero, disk, rfl⟩
    exact inv_boot k zero disk
  · intro s e s' h hstep
    exact h.step hstep.1 hstep.2

/-- A reference is a process on its way to or from the lock of the buffer, the lock or a pin: the
`uint` that counts them does not wrap. -/
theorem refcnt_lt (hs : ((sys c).restrict (Proper c)).Reachable s) (b : BufId) :
    0 ≤ (s.cache.buf b).refcnt ∧ (s.cache.buf b).refcnt < 4294967296 := by
  have h := inv_of_reachable hs
  obtain ⟨l, hok⟩ := h.ok
  have hrefs : countOf s.ref b ≤ NPROC :=
    (Finset.card_filter_le _ _).trans_eq (Finset.card_fin NPROC)
  have hlock : (if s.lock b = none then 0 else 1) ≤ 1 := by split_ifs <;> decide
  have hpins : s.pins b ≤ 1 := by
    rw [h.pins b, pinsOf]
    split_ifs <;> decide
  have howed : s.owed b ≤ NPROC + 2 := by
    rw [State.owed, Bio.owed]
    omega
  have hNPROC : NPROC = 64 := rfl
  rw [hok.refcnt b]
  omega

/-! ## What a step does to a home block -/

/-- The data of a step of `p`: it modifies the buffer `b`, writes it to the disk, or neither. -/
inductive Touches (s : State) (p : Proc) (s' : State) : Prop
  | none (hdisk : s'.disk = s.disk) (hlast : s'.last = s.last)
  | modify (b : BufId) (data : Block) (hdisk : s'.disk = s.disk)
      (hlast : s'.last = update s.last (s.cache.buf b).blockno data)
      (hpc : (∃ tail src, s.pc p = .writeLogCopy tail b src) ∨ ∃ clear, s.pc p = .headStore clear b)
  | write (b : BufId) (hdisk : s'.disk = (s.diskWrite b).disk) (hlast : s'.last = s.last)
      (hpc : (∃ tail src, s.pc p = .writeLogWrite tail b src) ∨
        (∃ clear, s.pc p = .headWrite clear b) ∨ ∃ tail lbuf, s.pc p = .installWrite tail lbuf b)

theorem touches_pcStep (hs : pcStep c p s (s.pc p) = .ok s') : Touches s p s' := by
  generalize hpc : s.pc p = pc at hs
  cases pc with
  | user => cases hs
  | bget m ret =>
    obtain ⟨⟨b, x⟩, -, hs⟩ := bind_eq_ok hs
    cases hs
    exact .none rfl rfl
  | waiting b m ret | unlock b ret | writeLog tail | install tail =>
    simp only [pcStep] at hs
    split_ifs at hs <;> cases hs <;> exact .none rfl rfl
  | fill b m ret | drop b ret | installCopy tail lbuf dbuf | installUnpin tail lbuf dbuf | clear
  | endCommit =>
    cases hs
    exact .none rfl rfl
  | writeLogCopy tail dst src =>
    cases hs
    exact .modify dst _ rfl rfl (.inl ⟨tail, src, hpc⟩)
  | headStore clear b =>
    cases hs
    exact .modify b _ rfl rfl (.inr ⟨clear, hpc⟩)
  | writeLogWrite tail dst src =>
    obtain ⟨t, hw, hs⟩ := bind_eq_ok hs
    obtain rfl := Inv.bwrite_ok hw
    cases hs
    exact .write dst rfl rfl (.inl ⟨tail, src, hpc⟩)
  | headWrite clear b =>
    obtain ⟨t, hw, hs⟩ := bind_eq_ok hs
    obtain rfl := Inv.bwrite_ok hw
    cases hs
    exact .write b rfl rfl (.inr (.inl ⟨clear, hpc⟩))
  | installWrite tail lbuf dbuf =>
    obtain ⟨t, hw, hs⟩ := bind_eq_ok hs
    obtain rfl := Inv.bwrite_ok hw
    cases hs
    exact .write dbuf rfl rfl (.inr (.inr ⟨tail, lbuf, hpc⟩))

theorem userStep_last (hs : userStep s e = .ok s') :
    s'.disk = s.disk ∧ (s'.last = s.last ∨ ∃ p b data, e = .modify p b data ∧
      s'.last = update s.last (s.cache.buf b).blockno data) := by
  cases e with
  | beginOp p =>
    simp only [userStep] at hs
    split_ifs at hs
    split at hs <;> cases hs
    exact ⟨rfl, .inl rfl⟩
  | endOp p =>
    simp only [userStep, endOp] at hs
    split_ifs at hs
    split at hs <;> cases hs <;> exact ⟨rfl, .inl rfl⟩
  | bread p m | brelse p b =>
    cases hs
    exact ⟨rfl, .inl rfl⟩
  | modify p b data =>
    cases hs
    exact ⟨rfl, .inr ⟨p, b, data, rfl, rfl⟩⟩
  | logWrite p b =>
    simp only [userStep, logWrite] at hs
    split at hs <;> cases hs <;> exact ⟨rfl, .inl rfl⟩
  | go p => cases hs

theorem step_cases (hs : step c s e = .ok s') :
    (∃ p, pcStep c p s (s.pc p) = .ok s') ∨ userStep s e = .ok s' := by
  cases e with
  | go p => exact .inl ⟨p, hs⟩
  | beginOp | endOp | bread | modify | logWrite | brelse =>
    simp only [step] at hs
    split_ifs at hs
    exact .inr hs

theorem last_changes (h : Inv c s) (hs : step c s e = .ok s') {m : ℕ} (hm : c.Home m)
    (hne : s'.last m ≠ s.last m) :
    ∃ p b data, e = .modify p b data ∧ (s.cache.buf b).blockno = m ∧ s'.last m = data := by
  have hat : ∀ b data, s'.last = update s.last (s.cache.buf b).blockno data →
      (s.cache.buf b).blockno = m := by
    intro b data hlast
    by_contra hb
    rw [hlast, update_of_ne (Ne.symm hb)] at hne
    exact hne rfl
  rcases step_cases hs with ⟨p, hs⟩ | hs
  · cases touches_pcStep hs with
    | none hdisk hlast => exact absurd (congrFun hlast m) hne
    | write b hdisk hlast => exact absurd (congrFun hlast m) hne
    | modify b data hdisk hlast hpc =>
      exfalso
      have hblock := hat b data hlast
      rcases hpc with ⟨tail, src, hpc⟩ | ⟨clear, hpc⟩
      · obtain ⟨hdst, ⟨m', hm', -⟩, -⟩ := h.knows hpc
        have htail : tail < s.log.lh.length := (List.getElem?_eq_some_iff.mp hm').1
        rw [hdst.holds.2] at hblock
        rw [← hblock] at hm
        exact h.log.not_home htail hm
      · have hb := (h.knows hpc).1
        rw [hb.holds.2] at hblock
        rw [← hblock] at hm
        exact c.start_not_home hm
  · obtain ⟨-, hlast | ⟨p, b, data, he, hlast⟩⟩ := userStep_last hs
    · exact absurd (congrFun hlast m) hne
    · have hblock := hat b data hlast
      refine ⟨p, b, data, he, hblock, ?_⟩
      rw [hlast, hblock, update_self]

theorem disk_changes (h : Inv c s) (hs : step c s e = .ok s') {m : ℕ} (hm : c.Home m)
    (hne : s'.disk c.dev m ≠ s.disk c.dev m) :
    m ∈ s.log.lh ∧ readHead (s.disk c.dev c.start) = s.log.lh := by
  have hsame : ∀ {t : State}, s'.disk = t.disk → t.disk c.dev m = s.disk c.dev m → False :=
    fun ht hd => hne ((congrFun (congrFun ht c.dev) m).trans hd)
  rcases step_cases hs with ⟨p, hs⟩ | hs
  · cases touches_pcStep hs with
    | none hdisk => exact (hsame hdisk rfl).elim
    | modify b data hdisk => exact (hsame hdisk rfl).elim
    | write b hdisk hlast hpc =>
      have hat : s.lock b = some p → (s.cache.buf b).blockno = m := by
        intro hlock
        by_contra hb
        exact hsame hdisk (h.diskWrite_of_ne hlock (Ne.symm hb))
      rcases hpc with ⟨tail, src, hpc⟩ | ⟨clear, hpc⟩ | ⟨tail, lbuf, hpc⟩
      · obtain ⟨hdst, ⟨m', hm', -⟩, -⟩ := h.knows hpc
        have htail : tail < s.log.lh.length := (List.getElem?_eq_some_iff.mp hm').1
        have hblock := hat hdst.lock
        rw [hdst.holds.2] at hblock
        rw [← hblock] at hm
        exact (h.log.not_home htail hm).elim
      · have hb := (h.knows hpc).1
        have hblock := hat hb.lock
        rw [hb.holds.2] at hblock
        rw [← hblock] at hm
        exact (c.start_not_home hm).elim
      · obtain ⟨-, ⟨m', hm', hdst⟩, -, -, hhead⟩ := h.knows hpc
        have hblock := hat hdst.lock
        rw [hdst.holds.2] at hblock
        rw [← hblock]
        exact ⟨List.mem_of_getElem? hm', hhead⟩
  · exact (hsame (userStep_last hs).1 rfl).elim

/-! ## Coherence -/

/-- In every run: `bread` returns the last modification of the block, of which the third part says
what it is; a modification that is not on the disk is in a valid buffer with references; a home
block is written to the disk only when the header on the disk is that of its transaction. -/
theorem coherent (hs : ((sys c).restrict (Proper c)).Reachable s) :
    (∀ p b m s', s.pc p = .fill b m .user → step c s (.go p) = .ok s' →
      s'.pc p = .user ∧ s'.lock b = some p ∧ s'.cache.Holds b c.dev m ∧
        (s'.cache.buf b).data = s'.last m) ∧
    (∀ m, s.disk c.dev m ≠ s.last m → ∃ b, s.cache.Holds b c.dev m ∧
      (s.cache.buf b).valid = true ∧ (s.cache.buf b).data = s.last m ∧
        0 < (s.cache.buf b).refcnt) ∧
    (∀ e s' m, step c s e = .ok s' → c.Home m → s'.last m ≠ s.last m →
      ∃ p b data, e = .modify p b data ∧ (s.cache.buf b).blockno = m ∧ s'.last m = data) ∧
    ∀ e s' m, step c s e = .ok s' → c.Home m → s'.disk c.dev m ≠ s.disk c.dev m →
      m ∈ s.log.lh ∧ readHead (s.disk c.dev c.start) = s.log.lh := by
  have h := inv_of_reachable hs
  obtain ⟨l, hok⟩ := h.ok
  refine ⟨?_, ?_, fun e s' m hstep => last_changes h hstep,
    fun e s' m hstep => disk_changes h hstep⟩
  · intro p b m s' hpc hstep
    have hstep' : pcStep c p s (s.pc p) = .ok s' := hstep
    have h' := h.pcStep hstep'
    obtain ⟨hlock, hholds, -, -⟩ := h.knows hpc
    rw [hpc] at hstep'
    cases hstep'
    have hbuf := Cache.fill_buf s.cache s.disk b b
    have hholds' : (s.cache.fill s.disk b).Holds b c.dev m :=
      ⟨hbuf.1.trans hholds.1, hbuf.2.1.trans hholds.2⟩
    refine ⟨State.go_pc_self _ _ _, hlock, hholds', ?_⟩
    have hdata := h'.data b (Cache.fill_self s.cache s.disk b).1 hholds'.1
    rw [hdata]
    exact congrArg s.last hholds'.2
  · intro m hne
    have hdata : ∀ b, s.cache.Holds b c.dev m → (s.cache.buf b).valid = true →
        (s.cache.buf b).data = s.last m := by
      intro b hb hv
      rw [h.data b hv hb.1, hb.2]
    have hcount : ∀ b, 0 < s.owed b → 0 < (s.cache.buf b).refcnt := by
      intro b hb
      rw [hok.refcnt b]
      exact_mod_cast hb
    rcases h.disk m with hd | hm | ⟨b, hb, hh⟩
    · exact absurd hd hne
    · obtain ⟨b, hb, hv⟩ := h.cached m hm
      have hpins := h.pins_of_holds hb hm
      exact ⟨b, hb, hv, hdata b hb hv, hcount b (Inv.owed_of_pins (by omega))⟩
    · obtain ⟨hv, hlock⟩ := h.dirty b hb
      obtain ⟨q, hq⟩ := Option.ne_none_iff_exists'.mp hlock
      exact ⟨b, hh, hv, hdata b hh hv, hcount b (Inv.owed_of_lock hq)⟩

instance (c : Layout) (s : State) : DecidablePred (Proper c s)
  | .modify p b _ => inferInstanceAs
      (Decidable (s.inOp p = true ∧ s.lock b = some p ∧ c.Home (s.cache.buf b).blockno))
  | .logWrite p b => inferInstanceAs
      (Decidable (s.lock b = some p ∧ c.Home (s.cache.buf b).blockno))
  | .brelse _ b => inferInstanceAs (Decidable (s.dirty b = false))
  | .bread _ m => inferInstanceAs (Decidable (m < 4294967296))
  | .beginOp _ | .endOp _ | .go _ => isTrue trivial

def firstProc : Proc := ⟨0, NPROC_pos⟩

def firstBuf : BufId := ⟨0, NBUF_pos⟩

def layout : Layout where
  dev := 1
  start := 2
  size := 30
  dev_ne := by decide
  size_pos := by decide
  fits := by decide

def run (es : List Event) : Option State :=
  TransSys.exec (fun s e => if Proper layout s e then (step layout s e).result else none)
    (boot layout ⟨id, id⟩ (fun _ => 0) fun _ _ _ => 0) es

theorem reachable_of_run {es : List Event} (hs : run es = some s) :
    ((sys layout).restrict (Proper layout)).Reachable s :=
  .of_exec (fun _ _ _ => result_eq_some.mp) ⟨_, _, _, rfl⟩ hs

/-- A process fills block 40 with sevens, logs and releases it and reads it again, up to the test of
`b->valid`. -/
def writeAndReread : List Event :=
  [.beginOp firstProc, .bread firstProc 40, .go firstProc, .go firstProc, .go firstProc,
    .modify firstProc firstBuf fun _ => 7, .logWrite firstProc firstBuf,
    .brelse firstProc firstBuf, .go firstProc, .go firstProc,
    .bread firstProc 40, .go firstProc, .go firstProc]

def Pc.filled : Pc → Option (BufId × ℕ)
  | .fill b m .user => some (b, m)
  | _ => none

theorem coherent_writeAndReread : ∃ s s' : State,
    ((sys layout).restrict (Proper layout)).Reachable s ∧
    step layout s (.go firstProc) = .ok s' ∧ s'.pc firstProc = .user ∧
    (s'.cache.buf firstBuf).data = s'.last 40 ∧
    ((s'.last 40).getWord 0, (s'.disk 1 40).getWord 0) = (0x07070707, 0) := by
  have hrun : (run writeAndReread).map (fun s =>
        ((s.pc firstProc).filled,
          ((step layout s (.go firstProc)).result.map fun s' =>
            ((s'.last 40).getWord 0, (s'.disk 1 40).getWord 0)))) =
      some (some (firstBuf, 40), some (0x07070707, 0)) := by decide +kernel
  obtain ⟨s, hs, h⟩ := Option.map_eq_some_iff.mp hrun
  obtain ⟨hpc, hnext⟩ := Prod.mk.inj h
  obtain ⟨s', hstep, hlast⟩ := Option.map_eq_some_iff.mp hnext
  have hreach := reachable_of_run hs
  have hfill : s.pc firstProc = .fill firstBuf 40 .user := by
    unfold Pc.filled at hpc
    split at hpc
    · next b m heq =>
      cases hpc
      exact heq
    · cases hpc
  have hok := result_eq_some.mp hstep
  obtain ⟨huser, -, -, hdata⟩ := (coherent hreach).1 firstProc firstBuf 40 s' hfill hok
  exact ⟨s, s', hreach, hok, huser, hdata, hlast⟩

end Xv6.Bio.Journal
