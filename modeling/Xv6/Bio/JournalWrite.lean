import Xv6.Bio.JournalStep

/-! # Modifications, disk writes and the log

The steps that change the data of a buffer, a block of the disk or the log itself. -/

namespace Xv6.Bio.Journal
set_option autoImplicit false
open Function (update update_self update_of_ne update_eq_self)

variable {c : Layout} {s s' : State} {p q : Proc} {b : BufId} {pc : Pc}

/-! ## Who else is active -/

theorem LogOk.others (h : LogOk c s) (hp : (s.pc p).commits = true) (hq : q ≠ p) :
    (s.pc q).commits = false := by
  cases hc : (s.pc q).commits with
  | false => rfl
  | true => exact absurd (h.one q p hc hp) hq

theorem LogOk.none_commits (h : LogOk c s) (hpos : 0 < s.log.outstanding) :
    s.log.committing = false ∧ s.unpinned = 0 ∧ ∀ q, (s.pc q).commits = false := by
  have hcom : s.log.committing = false := by
    cases hc : s.log.committing with
    | false => rfl
    | true =>
      have := h.quiet hc
      omega
  refine ⟨hcom, h.running hcom, ?_⟩
  intro q
  cases hq : (s.pc q).commits with
  | false => rfl
  | true =>
    rw [h.commits q hq] at hcom
    cases hcom

theorem LogOk.outstanding_pos (h : LogOk c s) (hp : s.inOp p = true) : 0 < s.log.outstanding := by
  rw [← h.ops]
  exact countOf_pos (congrArg some hp)

theorem LogOk.not_home (h : LogOk c s) {tail : ℕ} (htail : tail < s.log.lh.length) :
    ¬ c.Home (c.start + tail + 1) := by
  have := h.length
  unfold Layout.Home
  omega

theorem Layout.start_not_home (c : Layout) : ¬ c.Home c.start := by
  have := c.size_pos
  unfold Layout.Home
  omega

theorem State.go_eq_self (hpc : s.pc p = pc) : s.go p pc = s := by
  rw [State.go, ← hpc, update_eq_self]

theorem Inv.ref_same (h : s.ref p = pc.ref) : update s.ref p pc.ref = s.ref := by
  rw [← h]
  exact update_eq_self p s.ref

namespace Inv

/-! ## The data of a buffer -/

theorem setData_holds {a : BufId} {m : ℕ} {data : Block} (ha : s.cache.Holds a c.dev m) :
    (s.cache.setData b data).Holds a c.dev m :=
  ⟨(s.cache.setData_buf b data a).1.trans ha.1, (s.cache.setData_buf b data a).2.1.trans ha.2⟩

section
variable (h : Inv c s)
include h

theorem setData_ok (data : Block) (href : s.ref p = pc.ref) :
    ∃ l, (s.cache.setData b data).Ok l (Bio.owed (update s.ref p pc.ref) s.lock s.pins) := by
  obtain ⟨l, hok⟩ := h.ok
  rw [ref_same href]
  exact ⟨l, hok.setData b data⟩

theorem modify (hlock : s.lock b = some p) (hfill : (s.pc p).isFill = false) (data : Block)
    (href : s.ref p = pc.ref) (hcommits : pc.commits = (s.pc p).commits)
    (hquiet : ∀ q, q ≠ p → (s.pc q).commits = false)
    (hpc : PcOk c ((s.modify b data).go p pc) p pc) : Inv c ((s.modify b data).go p pc) := by
  have hbuf := s.cache.setData_buf b data
  have hbdev := (h.held b p hlock).1
  refine h.keep hbuf rfl rfl hfill ?_ ?_ ?_ ?_ ?_ h.pins (fun m hm hn => absurd hm hn)
    (h.log.go rfl rfl h.log.running rfl hcommits) hpc
  · intro a ha
    have hab : a ≠ b := by
      rintro rfl
      exact ha hlock
    exact update_of_ne hab _ _
  · intro q hq hc
    rw [hquiet q hq] at hc
    cases hc
  · rw [State.owed, State.ref_go]
    exact h.setData_ok data href
  · intro a hv hd
    show ((s.cache.setData b data).buf a).data =
      update s.last (s.cache.buf b).blockno data (s.cache.buf a).blockno
    by_cases ha : a = b
    · subst ha
      rw [Cache.setData_self, update_self]
    · have hne : (s.cache.buf a).blockno ≠ (s.cache.buf b).blockno := by
        intro heq
        exact ha (h.unique ⟨hd, heq⟩ ⟨hbdev, rfl⟩)
      rw [Cache.setData_of_ne _ _ ha, update_of_ne hne]
      exact h.data a hv hd
  · intro m
    by_cases hm : m = (s.cache.buf b).blockno
    · exact .inr (.inr ⟨b, update_self _ _ _, hbdev, hm.symm⟩)
    · have hlast : ((s.modify b data).go p pc).last m = s.last m := update_of_ne hm _ _
      rw [hlast]
      rcases h.disk m with hd | hp | ⟨a, ha, hh⟩
      · exact .inl hd
      · exact .inr (.inl hp)
      · refine .inr (.inr ⟨a, ?_, hh⟩)
        by_cases hab : a = b
        · rw [hab]
          exact update_self _ _ _
        · exact (update_of_ne hab _ _).trans ha

theorem setData {data : Block} (hfill : (s.pc p).isFill = false)
    (hdata : data = s.last (s.cache.buf b).blockno) (href : s.ref p = pc.ref)
    (hcommits : pc.commits = (s.pc p).commits) (hpc : PcOk c ((s.setData b data).go p pc) p pc) :
    Inv c ((s.setData b data).go p pc) := by
  refine h.keep (s.cache.setData_buf b data) rfl rfl hfill (fun _ _ => rfl) (fun _ _ _ => rfl) ?_ ?_
    h.disk h.pins (fun m hm hn => absurd hm hn) (h.log.go rfl rfl h.log.running rfl hcommits) hpc
  · rw [State.owed, State.ref_go]
    exact h.setData_ok data href
  · intro a hv hd
    show ((s.cache.setData b data).buf a).data = s.last (s.cache.buf a).blockno
    by_cases ha : a = b
    · subst ha
      rw [Cache.setData_self, hdata]
    · rw [Cache.setData_of_ne _ _ ha]
      exact h.data a hv hd

/-! ## The disk -/

theorem diskWrite_disk (hlock : s.lock b = some p) : (s.diskWrite b).disk c.dev =
      update (s.disk c.dev) (s.cache.buf b).blockno (s.cache.buf b).data := by
  rw [State.diskWrite]
  simp only [(h.held b p hlock).1, update_self]

theorem diskWrite_self (hlock : s.lock b = some p) (hfill : (s.pc p).isFill = false) :
    (s.diskWrite b).disk c.dev (s.cache.buf b).blockno = s.last (s.cache.buf b).blockno := by
  rw [h.diskWrite_disk hlock, update_self]
  exact h.data b (h.valid_of_held hlock hfill) (h.held b p hlock).1

theorem diskWrite_of_ne (hlock : s.lock b = some p) {m : ℕ} (hm : m ≠ (s.cache.buf b).blockno) :
    (s.diskWrite b).disk c.dev m = s.disk c.dev m := by
  rw [h.diskWrite_disk hlock, update_of_ne hm]

theorem diskWrite (hlock : s.lock b = some p) (hfill : (s.pc p).isFill = false)
    (href : s.ref p = pc.ref) (hcommits : pc.commits = (s.pc p).commits)
    (hquiet : ∀ q, q ≠ p → (s.pc q).commits = false) (hpc : PcOk c ((s.diskWrite b).go p pc) p pc) :
    Inv c ((s.diskWrite b).go p pc) := by
  refine h.keep (fun _ => ⟨rfl, rfl, rfl⟩) rfl rfl hfill ?_ ?_ ?_ h.data ?_ h.pins
    (fun m hm hn => absurd hm hn) (h.log.go rfl rfl h.log.running rfl hcommits) hpc
  · intro a ha
    have hab : a ≠ b := by
      rintro rfl
      exact ha hlock
    exact update_of_ne hab _ _
  · intro q hq hc
    rw [hquiet q hq] at hc
    cases hc
  · rw [State.owed, State.ref_go]
    show ∃ l, s.cache.Ok l (Bio.owed (update s.ref p pc.ref) s.lock s.pins)
    rw [ref_same href]
    exact h.ok
  · intro m
    by_cases hm : m = (s.cache.buf b).blockno
    · rw [hm]
      exact .inl (h.diskWrite_self hlock hfill)
    · rcases h.disk m with hd | hp | ⟨a, ha, hh⟩
      · exact .inl ((h.diskWrite_of_ne hlock hm).trans hd)
      · exact .inr (.inl hp)
      · have hab : a ≠ b := by
          rintro rfl
          exact hm hh.2.symm
        exact .inr (.inr ⟨a, (update_of_ne hab _ _).trans ha, hh⟩)

end

end Inv
end Xv6.Bio.Journal
