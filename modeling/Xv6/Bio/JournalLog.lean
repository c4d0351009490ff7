import Xv6.Bio.JournalWrite

/-! # The transactions

`begin_op`, `log_write`, `end_op` and what `commit` does to the log: a block is pinned when it is
first logged, and unpinned once, after it has been written to its home. -/

namespace Xv6.Bio.Journal
set_option autoImplicit false
open Function (update update_self update_of_ne update_eq_self comp_update)

variable {c : Layout} {s s' : State} {p q : Proc} {b : BufId} {pc : Pc}

namespace Inv

/-! ## `log_write` -/

section
variable (h : Inv c s) (hp : s.pc p = .user) (hlock : s.lock b = some p)
include h hp hlock

theorem logWrite_old (hout : 1 ≤ s.log.outstanding) (hmem : (s.cache.buf b).blockno ∈ s.log.lh) :
    Inv c { s with dirty := update s.dirty b false } := by
  obtain ⟨-, hun, -⟩ := h.log.none_commits hout
  refine h.keep (fun _ => ⟨rfl, rfl, rfl⟩) rfl (update_eq_self _ _).symm
    (by rw [hp]; rfl) ?_ (fun _ _ _ => rfl) h.ok h.data ?_ h.pins (fun m hm hn => absurd hm hn)
    ⟨h.log.nodup, h.log.home, h.log.size, h.log.length, h.log.ops, h.log.quiet, h.log.running,
      h.log.commits, h.log.one⟩ (by rw [hp]; trivial)
  · intro a ha
    have hab : a ≠ b := by
      rintro rfl
      exact ha hlock
    exact update_of_ne hab _ _
  · intro m
    rcases h.disk m with hd | hm | ⟨a, ha, hh⟩
    · exact .inl hd
    · exact .inr (.inl hm)
    · by_cases hab : a = b
      · subst hab
        refine .inr (.inl ?_)
        show m ∈ s.log.lh.drop s.unpinned
        rw [hun, List.drop_zero, ← hh.2]
        exact hmem
      · exact .inr (.inr ⟨a, (update_of_ne hab _ _).trans ha, hh⟩)

theorem logWrite_new (hhome : c.Home (s.cache.buf b).blockno) (hout : 1 ≤ s.log.outstanding)
    (hlen : s.log.lh.length < LOGSIZE ∧ s.log.lh.length < s.log.size - 1)
    (hmem : (s.cache.buf b).blockno ∉ s.log.lh) : Inv c { s with
      log := { s.log with lh := s.log.lh ++ [(s.cache.buf b).blockno] }
      dirty := update s.dirty b false
      cache := s.cache.bpin b
      pins := update s.pins b (s.pins b + 1) } := by
  obtain ⟨-, hun, hquiet⟩ := h.log.none_commits hout
  have hsame := s.cache.bpin_same b
  have hdev := (h.held b p hlock).1
  have hpinned : s.pinned = s.log.lh := by
    rw [State.pinned, hun, List.drop_zero]
  have hpinned' : (s.log.lh ++ [(s.cache.buf b).blockno]).drop s.unpinned =
      s.log.lh ++ [(s.cache.buf b).blockno] := by
    rw [hun, List.drop_zero]
  refine h.keep (fun a => ⟨(hsame a).dev, (hsame a).blockno, (hsame a).valid⟩) rfl
    (update_eq_self _ _).symm (by rw [hp]; rfl) ?_ ?_ ?_ ?_ ?_ ?_ ?_ ?_ (by rw [hp]; trivial)
  · intro a ha
    have hab : a ≠ b := by
      rintro rfl
      exact ha hlock
    exact update_of_ne hab _ _
  · intro q _ hc
    rw [hquiet q] at hc
    cases hc
  · obtain ⟨l, hok⟩ := h.ok
    refine ⟨l, ?_⟩
    have howed : Bio.owed s.ref s.lock (update s.pins b (s.pins b + 1)) =
        update s.owed b (s.owed b + 1) := by
      apply owed_pins
      show s.owed b + (s.pins b + 1) = s.owed b + 1 + s.pins b
      omega
    show (s.cache.bpin b).Ok l (Bio.owed s.ref s.lock (update s.pins b (s.pins b + 1)))
    rw [howed]
    exact hok.bpin b
  · intro a hv hd
    exact (hsame a).data.trans (h.data a hv hd)
  · intro m
    show _ ∨ m ∈ (s.log.lh ++ [(s.cache.buf b).blockno]).drop s.unpinned ∨ _
    rw [hpinned']
    rcases h.disk m with hd | hm | ⟨a, ha, hh⟩
    · exact .inl hd
    · rw [hpinned] at hm
      exact .inr (.inl (List.mem_append_left _ hm))
    · by_cases hab : a = b
      · subst hab
        rw [hh.2]
        exact .inr (.inl (List.mem_append_right _ List.mem_cons_self))
      · exact .inr (.inr ⟨a, (update_of_ne hab _ _).trans ha, hh⟩)
  · intro a
    show update s.pins b (s.pins b + 1) a =
      pinsOf c ((s.log.lh ++ [(s.cache.buf b).blockno]).drop s.unpinned) (s.cache.buf a)
    rw [hpinned']
    have hold := h.pins a
    rw [hpinned] at hold
    by_cases hab : a = b
    · subst hab
      rw [pinsOf, if_neg (fun hc => hmem hc.2)] at hold
      rw [update_self, hold, pinsOf, if_pos]
      exact ⟨hdev, List.mem_append_right _ List.mem_cons_self⟩
    · rw [update_of_ne hab, hold]
      have hiff : (s.cache.buf a).dev = c.dev ∧ (s.cache.buf a).blockno ∈ s.log.lh ↔
          (s.cache.buf a).dev = c.dev ∧
            (s.cache.buf a).blockno ∈ s.log.lh ++ [(s.cache.buf b).blockno] := by
        refine and_congr_right ?_
        intro ha
        rw [List.mem_append, List.mem_singleton]
        refine ⟨.inl, ?_⟩
        rintro (hm | hm)
        · exact hm
        · exact absurd (h.unique ⟨ha, hm⟩ ⟨hdev, rfl⟩) hab
      simp only [pinsOf, hiff]
  · intro m hm hn
    have hm : m ∈ s.log.lh ++ [(s.cache.buf b).blockno] := by
      rw [← hpinned']
      exact hm
    rw [hpinned] at hn
    rcases List.mem_append.mp hm with hm | hm
    · exact absurd hm hn
    · obtain rfl := List.mem_singleton.mp hm
      exact ⟨b, ⟨hdev, rfl⟩, h.valid_of_held hlock (by rw [hp]; rfl)⟩
  · refine ⟨?_, ?_, h.log.size, ?_, h.log.ops, h.log.quiet, h.log.running, h.log.commits,
      h.log.one⟩
    · refine List.nodup_append.mpr ⟨h.log.nodup, List.nodup_singleton _, ?_⟩
      intro x hx y hy hxy
      rw [List.mem_singleton.mp hy] at hxy
      exact hmem (hxy ▸ hx)
    · intro m hm
      rcases List.mem_append.mp hm with hm | hm
      · exact h.log.home m hm
      · rw [List.mem_singleton.mp hm]
        exact ⟨hhome, h.uint b⟩
    · have := h.log.size
      simp only [List.length_append, List.length_singleton]
      omega

theorem logWrite (hhome : c.Home (s.cache.buf b).blockno) (hs : logWrite b s = .ok s') :
    Inv c s' := by
  unfold Journal.logWrite at hs
  split at hs
  · cases hs
  · next l hl =>
    cases hs
    obtain ⟨-, -, hout, ⟨hmem, -, rfl⟩ | ⟨-, hnew, -⟩⟩ := Log.logWrite_eq_ok hl
    · exact h.logWrite_old hp hlock hout hmem
    · cases hnew
  · next l hl =>
    cases hs
    obtain ⟨hlen, hlen', hout, ⟨-, hnew, -⟩ | ⟨hmem, -, rfl⟩⟩ := Log.logWrite_eq_ok hl
    · cases hnew
    · exact h.logWrite_new hp hlock hhome hout ⟨hlen, hlen'⟩ hmem

end

/-! ## `commit` -/

theorem installUnpin {tail : ℕ} {lbuf dbuf : BufId} (h : Inv c s)
    (hpc : s.pc p = .installUnpin tail lbuf dbuf) :
    Inv c ({ s with
      cache := s.cache.bunpin dbuf
      pins := update s.pins dbuf (s.pins dbuf - 1)
      unpinned := s.unpinned + 1 }.go p (.unlock lbuf (.instLog tail dbuf))) := by
  have hknow := h.pcs p
  rw [hpc] at hknow
  obtain ⟨hlog, ⟨m, hm, hdst, hdisk⟩, hun, hcopied, hhead⟩ := hknow
  have hun : s.unpinned = tail := hun
  have hcommits : (s.pc p).commits = true := by rw [hpc]; rfl
  have hsame := s.cache.bunpin_same dbuf
  have htail : tail < s.log.lh.length := by
    by_contra hge
    rw [List.getElem?_eq_none (by omega)] at hm
    cases hm
  have hpinned : s.pinned = m :: s.log.lh.drop (tail + 1) := by
    rw [State.pinned, hun, List.drop_eq_getElem_cons htail]
    rw [List.getElem?_eq_getElem htail] at hm
    rw [Option.some.inj hm]
  have hnodup : m ∉ s.log.lh.drop (tail + 1) := by
    have hsub : (m :: s.log.lh.drop (tail + 1)).Nodup := by
      rw [← hpinned]
      exact h.log.nodup.sublist (List.drop_sublist _ _)
    exact (List.nodup_cons.mp hsub).1
  have hpins : s.pins dbuf = 1 := by
    apply h.pins_of_holds hdst.holds
    rw [hpinned]
    exact List.mem_cons_self
  have hpinned' : s.log.lh.drop (s.unpinned + 1) = s.log.lh.drop (tail + 1) := by rw [hun]
  have hne : lbuf ≠ dbuf := by
    rintro rfl
    have hblock : c.start + tail + 1 = m := hlog.holds.2.symm.trans hdst.holds.2
    apply h.log.not_home htail
    rw [hblock]
    exact (h.log.block_lt hm).1
  refine h.keep (fun a => ⟨(hsame a).dev, (hsame a).blockno, (hsame a).valid⟩) rfl rfl
    (by rw [hpc]; rfl) (fun _ _ => rfl) ?_ ?_ ?_ ?_ ?_ ?_ ?_ ?_
  · intro q hq hc
    rw [h.log.others hcommits hq] at hc
    cases hc
  · obtain ⟨l, hok⟩ := h.ok
    refine ⟨l, ?_⟩
    have hle : s.pins dbuf ≤ s.owed dbuf := Nat.le_add_left _ _
    have howed : Bio.owed s.ref s.lock (update s.pins dbuf (s.pins dbuf - 1)) =
        update s.owed dbuf (s.owed dbuf - 1) := by
      apply owed_pins
      show s.owed dbuf + (s.pins dbuf - 1) = s.owed dbuf - 1 + s.pins dbuf
      omega
    have href : s.ref p = (Pc.unlock lbuf (.instLog tail dbuf)).ref := by
      rw [State.ref, hpc]
      rfl
    rw [State.owed, State.ref_go]
    show (s.cache.bunpin dbuf).Ok l (Bio.owed (update s.ref p _) s.lock
      (update s.pins dbuf (s.pins dbuf - 1)))
    rw [ref_same href, howed]
    exact hok.bunpin (by omega)
  · intro a hv hd
    exact (hsame a).data.trans (h.data a hv hd)
  · intro m'
    show _ ∨ m' ∈ s.log.lh.drop (s.unpinned + 1) ∨ _
    rw [hpinned']
    rcases h.disk m' with hd | hm' | hdirty
    · exact .inl hd
    · rw [hpinned] at hm'
      rcases List.mem_cons.mp hm' with rfl | hm'
      · exact .inl hdisk
      · exact .inr (.inl hm')
    · exact .inr (.inr hdirty)
  · intro a
    show update s.pins dbuf (s.pins dbuf - 1) a =
      pinsOf c (s.log.lh.drop (s.unpinned + 1)) (s.cache.buf a)
    rw [hpinned']
    have hold := h.pins a
    rw [hpinned] at hold
    by_cases hab : a = dbuf
    · subst hab
      rw [update_self, hpins, pinsOf, if_neg]
      rw [hdst.holds.2]
      exact fun hc => hnodup hc.2
    · rw [update_of_ne hab, hold]
      have hiff : (s.cache.buf a).dev = c.dev ∧
            (s.cache.buf a).blockno ∈ m :: s.log.lh.drop (tail + 1) ↔
          (s.cache.buf a).dev = c.dev ∧ (s.cache.buf a).blockno ∈ s.log.lh.drop (tail + 1) := by
        refine and_congr_right ?_
        intro ha
        rw [List.mem_cons]
        refine ⟨?_, .inr⟩
        rintro (hm' | hm')
        · exact absurd (h.unique ⟨ha, hm'⟩ hdst.holds) hab
        · exact hm'
      simp only [pinsOf, hiff]
  · intro m' hm' hn
    refine absurd ?_ hn
    rw [hpinned]
    refine List.mem_cons_of_mem m ?_
    rw [← hpinned']
    exact hm'
  · refine h.log.go rfl rfl ?_ rfl (by rw [hcommits]; rfl)
    intro hc
    rw [h.log.commits p hcommits] at hc
    cases hc
  · refine ⟨fun _ => hlog.clean, ?_, ⟨m, hdst.frame ?_⟩, ?_, hcopied, hhead⟩
    · intro heq
      exact hne (Option.some.inj heq).symm
    · exact ⟨id, fun m _ => (Kept.same (hsame dbuf)).holds, fun _ => (hsame dbuf).valid.trans,
        fun _ => rfl⟩
    · show s.unpinned + 1 = tail + 1
      rw [hun]

theorem clear (h : Inv c s) (hpc : s.pc p = .clear) :
    Inv c ({ s with log := s.log.clear, unpinned := 0 }.go p (.bget c.start (.head true))) := by
  have hknow := h.pcs p
  rw [hpc] at hknow
  have hpinned : s.pinned = [] := hknow
  have hcommits : (s.pc p).commits = true := by rw [hpc]; rfl
  have hstart : c.start < 4294967296 := by
    have := c.fits
    have := c.size_pos
    omega
  refine h.keep (fun _ => ⟨rfl, rfl, rfl⟩) rfl rfl (by rw [hpc]; rfl) (fun _ _ => rfl) ?_ ?_ h.data
    ?_ ?_ ?_ ?_ ⟨hstart, rfl, rfl, rfl⟩
  · intro q hq hc
    rw [h.log.others hcommits hq] at hc
    cases hc
  · have href : s.ref p = (Pc.bget c.start (.head true)).ref := by
      rw [State.ref, hpc]
      rfl
    rw [State.owed, State.ref_go]
    show ∃ l, s.cache.Ok l (Bio.owed (update s.ref p _) s.lock s.pins)
    rw [ref_same href]
    exact h.ok
  · intro m
    have hm := h.disk m
    rw [hpinned] at hm
    exact hm
  · intro a
    have ha := h.pins a
    rw [hpinned] at ha
    exact ha
  · intro m hm
    cases hm
  · have hpcs : ∀ q, (update s.pc p (Pc.bget c.start (.head true)) q).commits =
        (s.pc q).commits := by
      intro q
      by_cases hq : q = p
      · rw [hq, update_self, hcommits]
        rfl
      · rw [update_of_ne hq]
    refine ⟨List.nodup_nil, ?_, h.log.size, ⟨Nat.zero_le _, Nat.zero_le _⟩, h.log.ops, h.log.quiet,
      fun _ => rfl, ?_, ?_⟩
    · intro m hm
      cases hm
    · intro q hq
      exact h.log.commits q ((hpcs q).symm.trans hq)
    · intro q r hq hr
      exact h.log.one q r ((hpcs q).symm.trans hq) ((hpcs r).symm.trans hr)

/-! ## The operations -/

theorem relog (h : Inv c s) (l : Log) (inOp : Proc → Bool) (pcs : Proc → Pc)
    (hlh : l.lh = s.log.lh) (hpcs : ∀ q, q ≠ p → pcs q = s.pc q)
    (hfill : (s.pc p).isFill = false) (href : (pcs p).ref = (s.pc p).ref)
    (hself : PcOk c { s with log := l, inOp := inOp, pc := pcs } p (pcs p))
    (hlog : LogOk c { s with log := l, inOp := inOp, pc := pcs }) :
    Inv c { s with log := l, inOp := inOp, pc := pcs } := by
  have hpinned : State.pinned { s with log := l, inOp := inOp, pc := pcs } = s.pinned := by
    show l.lh.drop s.unpinned = s.log.lh.drop s.unpinned
    rw [hlh]
  have hupdate : pcs = update s.pc p (pcs p) := by
    funext q
    by_cases hq : q = p
    · rw [hq, update_self]
    · rw [update_of_ne hq, hpcs q hq]
  refine h.keep (fun _ => ⟨rfl, rfl, rfl⟩) rfl hupdate hfill (fun _ _ => rfl) ?_ ?_ h.data ?_ ?_ ?_
    hlog hself
  · intro q _ _
    simp only [State.shared, hlh]
  · have href' : State.ref { s with log := l, inOp := inOp, pc := pcs } = s.ref := by
      funext q
      show (pcs q).ref = (s.pc q).ref
      by_cases hq : q = p
      · rw [hq, href]
      · rw [hpcs q hq]
    rw [State.owed, href']
    exact h.ok
  · rw [hpinned]
    exact h.disk
  · rw [hpinned]
    exact h.pins
  · rw [hpinned]
    exact fun m hm hn => absurd hm hn

theorem endCommit (h : Inv c s) (hpc : s.pc p = .endCommit) :
    Inv c ({ s with log := s.log.endCommit }.go p .user) := by
  have hknow := h.pcs p
  rw [hpc] at hknow
  have hcommits : (s.pc p).commits = true := by rw [hpc]; rfl
  have hself : update s.pc p Pc.user p = .user := update_self _ _ _
  have hnone : ∀ q, (update s.pc p Pc.user q).commits = false := by
    intro q
    by_cases hq : q = p
    · rw [hq, hself]
      rfl
    · rw [update_of_ne hq]
      exact h.log.others hcommits hq
  refine h.relog s.log.endCommit s.inOp (update s.pc p .user) rfl
    (fun q hq => update_of_ne hq _ _) (by rw [hpc]; rfl) (by rw [hself, hpc]; rfl)
    (by rw [hself]; trivial) ?_
  refine ⟨h.log.nodup, h.log.home, h.log.size, h.log.length, h.log.ops, ?_,
    fun _ => hknow.1, ?_, ?_⟩
  · intro hc
    cases hc
  · intro q hq
    exact absurd ((hnone q).symm.trans hq) Bool.false_ne_true
  · intro q r hq
    exact absurd ((hnone q).symm.trans hq) Bool.false_ne_true

theorem countOf_inOp (inOp : Proc → Bool) (p : Proc) (v : Bool) :
    countOf (fun q => some (update inOp p v q)) true + (if inOp p then 1 else 0) =
      countOf (fun q => some (inOp q)) true + (if v then 1 else 0) := by
  have hupdate : (fun q => some (update inOp p v q)) =
      update (fun q => some (inOp q)) p (some v) :=
    comp_update some inOp p v
  have hcount := countOf_update (fun q => some (inOp q)) p (some v) true
  rw [hupdate]
  simpa using hcount

theorem beginOp {l : Log} (h : Inv c s) (hp : s.pc p = .user) (hout : s.inOp p = false)
    (hl : s.log.beginOp = some l) :
    Inv c { s with log := l, inOp := update s.inOp p true } := by
  obtain ⟨hcom, -, rfl⟩ := Log.beginOp_eq_some hl
  refine h.relog _ (update s.inOp p true) s.pc rfl (fun _ _ => rfl)
    (by rw [hp]; rfl) rfl (by rw [hp]; trivial) ?_
  refine ⟨h.log.nodup, h.log.home, h.log.size, h.log.length, ?_, ?_, h.log.running, h.log.commits,
    h.log.one⟩
  · have hcount := countOf_inOp s.inOp p true
    rw [hout, h.log.ops] at hcount
    exact hcount
  · intro hc
    exact absurd (hcom.symm.trans hc) Bool.false_ne_true

theorem endOp (h : Inv c s) (hp : s.pc p = .user) (hin : s.inOp p = true)
    (hs : endOp p s = .ok s') : Inv c s' := by
  obtain ⟨hcom, hun, hquiet⟩ := h.log.none_commits (h.log.outstanding_pos hin)
  have hcount := countOf_inOp s.inOp p false
  rw [hin, h.log.ops, if_pos rfl, if_neg Bool.false_ne_true] at hcount
  unfold Journal.endOp at hs
  split at hs
  · cases hs
  · next l hl =>
    cases hs
    obtain ⟨-, ⟨-, hc, -⟩ | ⟨-, -, rfl⟩⟩ := Log.endOp_eq_ok hl
    · cases hc
    · refine h.relog _ (update s.inOp p false) s.pc rfl (fun _ _ => rfl)
        (by rw [hp]; rfl) rfl (by rw [hp]; trivial) ?_
      refine ⟨h.log.nodup, h.log.home, h.log.size, h.log.length, ?_, ?_, h.log.running,
        h.log.commits,
        h.log.one⟩
      · show countOf (fun q => some (update s.inOp p false q)) true = s.log.outstanding - 1
        omega
      · intro hc
        exact absurd (hcom.symm.trans hc) Bool.false_ne_true
  · next l hl =>
    cases hs
    obtain ⟨-, ⟨hzero, -, rfl⟩ | ⟨-, hc, -⟩⟩ := Log.endOp_eq_ok hl
    · -- the last operation: `p` goes on to `commit`
      generalize hpc : (if 0 < ({ s.log with outstanding := 0, committing := true } : Log).lh.length
        then Pc.writeLog 0 else Pc.endCommit) = pc
      have hself : update s.pc p pc p = pc := update_self _ _ _
      have hother : ∀ q, q ≠ p → update s.pc p pc q = s.pc q := fun q hq =>
        update_of_ne hq _ _
      have honly : ∀ q, (update s.pc p pc q).commits = true → q = p := by
        intro q hq
        by_contra hne
        rw [hother q hne, hquiet q] at hq
        cases hq
      refine h.relog _ (update s.inOp p false) (update s.pc p pc) rfl hother
        (by rw [hp]; rfl) ?_ ?_ ?_
      · rw [hself, hp, ← hpc]
        split_ifs <;> rfl
      · rw [hself, ← hpc]
        split_ifs with hn
        · refine ⟨hun, ?_⟩
          intro i m hi
          omega
        · have hlen : s.log.lh.length = 0 := Nat.eq_zero_of_not_pos hn
          exact ⟨hun, List.eq_nil_of_length_eq_zero hlen⟩
      · refine ⟨h.log.nodup, h.log.home, h.log.size, h.log.length, ?_, fun _ => rfl, ?_,
          fun _ _ => rfl, ?_⟩
        · show countOf (fun q => some (update s.inOp p false q)) true = 0
          omega
        · intro hc
          cases hc
        · intro q r hq hr
          rw [honly q hq, honly r hr]
    · cases hc

end Inv
end Xv6.Bio.Journal
