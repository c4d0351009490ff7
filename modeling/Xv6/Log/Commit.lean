import Xv6.Log.Invariant

/-! # The steps of `commit`

`write_log`, the commit point in `write_head`, `install_trans` and the final clearing of the header,
each of them keeping the disk recoverable.
-/

namespace Xv6.CrashLog
open Xv6
set_option autoImplicit false
open Function (update update_of_ne update_apply)

variable {c : Layout} {base : ℕ → Block} {s s' : State} {H disk : ℕ → Block} {b tail : ℕ}

/-! ## Disks that recovery restores -/

theorem Recoverable.of_clean (hh : readHead (disk c.start) = [])
    (hr : ∀ b, c.Home b → disk b = H b) :
    Recoverable c disk H where
  fits := by rw [hh]; exact c.size_pos
  home := by rw [hh]; intro b hb; cases hb
  logged := by rw [hh]; intro t b hb; simp at hb
  rest := fun b hb _ => hr b hb

theorem Recoverable.rest_of_clean (h : Recoverable c disk H) (hh : readHead (disk c.start) = [])
    (b : ℕ) (hb : c.Home b) : disk b = H b :=
  h.rest b hb (by rw [hh]; exact List.not_mem_nil)

theorem Layout.Home.ne_start (hb : c.Home b) : b ≠ c.start := by
  have := c.size_pos
  unfold Layout.Home at hb
  omega

theorem Layout.Home.ne_slot {t : ℕ} (hb : c.Home b) (ht : t + 1 < c.size) :
    b ≠ c.start + t + 1 := by
  unfold Layout.Home at hb
  omega

theorem Recoverable.install (h : Recoverable c disk H) {t : ℕ}
    (hb : (readHead (disk c.start))[t]? = some b) :
    Recoverable c (update disk b (disk (c.start + t + 1))) H := by
  have hhome := h.home b (List.mem_of_getElem? hb)
  have hstart : update disk b (disk (c.start + t + 1)) c.start = disk c.start :=
    update_of_ne hhome.ne_start.symm _ _
  exact {
    fits := by rw [hstart]; exact h.fits
    home := by rw [hstart]; exact h.home
    logged := by
      rw [hstart]
      intro u x hx
      have hu : u + 1 < c.size := by
        have := (List.getElem?_eq_some_iff.mp hx).1
        have := h.fits
        omega
      rw [update_of_ne (hhome.ne_slot hu).symm]
      exact h.logged u x hx
    rest := by
      rw [hstart]
      intro x hx hnot
      have hxb : x ≠ b := fun e => hnot (e ▸ List.mem_of_getElem? hb)
      rw [update_of_ne hxb]
      exact h.rest x hx hnot }

/-! ## The steps of `commit` -/

theorem State.bwrite_disk (b x : ℕ) (v : Block) :
    (s.bwrite b v).disk x = if x = b then v else s.disk x := update_apply ..

theorem State.bwrite_cache (b x : ℕ) (v : Block) :
    (s.bwrite b v).cache x = if x = b then some v else s.cache x := update_apply ..

theorem State.bwrite_sync {x : ℕ} {v : Block}
    (h : x ≠ b → s.cache x = none ∨ s.cache x = some (s.disk x)) :
    (s.bwrite b v).cache x = none ∨ (s.bwrite b v).cache x = some ((s.bwrite b v).disk x) := by
  rw [State.bwrite_cache, State.bwrite_disk]
  by_cases hx : x = b
  · simp [hx]
  · simpa [hx] using h hx

theorem State.bwrite_bread_ne {x : ℕ} {v : Block} (hx : x ≠ b) :
    (s.bwrite b v).bread x = s.bread x := by
  simp [State.bread, State.bwrite, update_of_ne hx]

theorem Inv.phase_at {pc : Pc} (h : Inv c base s) (hpc : s.pc = pc)
    (hr : pc.recovering = false) : Live c base s ∧ Phase c base { s with pc := pc } := by
  subst hpc
  exact ⟨h.live hr, h.phase⟩

theorem Inv.writeLogBlock (h : Inv c base s) (hpc : s.pc = .writeLog tail)
    (hb : s.log.lh[tail]? = some b) :
    Inv c base { s.bwrite (c.start + tail + 1) (s.bread b) with pc := .writeLog (tail + 1) } := by
  obtain ⟨hlive, hcom, hclean, hgrp, hret, hdone⟩ := h.phase_at hpc rfl
  have hslot : tail + 1 < c.size := by
    have := (List.getElem?_eq_some_iff.mp hb).1
    have := hlive.lt_size
    omega
  have hhead : (s.bwrite (c.start + tail + 1) (s.bread b)).disk c.start = s.disk c.start := by
    rw [State.bwrite_disk, if_neg (by omega)]
  have hpend : pending s = s.log.lh := by unfold pending; rw [hpc]
  have hb' : c.Home b := hlive.home b (List.mem_of_getElem? hb)
  exact {
    size := h.size
    recov := by
      refine Recoverable.of_clean (hhead ▸ hclean) fun x hx => ?_
      change (s.bwrite (c.start + tail + 1) (s.bread b)).disk x = durable base s x
      rw [State.bwrite_disk, if_neg (hx.ne_slot hslot)]
      exact h.recov.rest_of_clean hclean x hx
    sync := fun x hx => State.bwrite_sync fun _ => h.sync_of hpend x hx
    pins := h.pins_of hpend
    live := fun _ => { hlive with
      reads := fun x hx => (State.bwrite_bread_ne (hx.ne_slot hslot)).trans (hlive.reads x hx) }
    down := fun hr => by cases hr
    phase := by
      refine ⟨hcom, hhead ▸ hclean, hgrp, hret, ?_⟩
      intro t ht x hx
      change (s.bwrite (c.start + tail + 1) (s.bread b)).disk (c.start + t + 1) = view base s x
      rw [State.bwrite_disk]
      split
      · next he =>
        have ht' : t = tail := by omega
        subst ht'
        have hxb : x = b := Option.some.inj (hx.symm.trans hb)
        subst hxb
        exact hlive.reads x hb'
      · next he => exact hdone t (by omega) x hx }

theorem Inv.writeLogDone (h : Inv c base s) (hpc : s.pc = .writeLog tail)
    (hb : s.log.lh[tail]? = none) : Inv c base { s with pc := .writeHead } := by
  obtain ⟨hlive, hcom, hclean, hgrp, hret, hdone⟩ := h.phase_at hpc rfl
  have hpend : pending s = s.log.lh := by unfold pending; rw [hpc]
  have hlen : s.log.lh.length ≤ tail := List.getElem?_eq_none_iff.mp hb
  exact {
    size := h.size
    recov := h.recov
    sync := h.sync_of hpend
    pins := h.pins_of hpend
    live := fun _ => { hlive with }
    down := fun hr => by cases hr
    phase := by
      refine ⟨hcom, hclean, hgrp, hret, fun t x hx => hdone t ?_ x hx⟩
      have ht : t < s.log.lh.length := (List.getElem?_eq_some_iff.mp hx).1
      omega }

theorem Inv.writeHeadBlock (h : Inv c base s) (hpc : s.pc = .writeHead) :
    Inv c base { s.bwrite c.start (Xv6.writeHead (s.bread c.start) s.log.lh) with
      pc := .install 0, ncommitted := s.ncommitted + 1 } := by
  have hlive := h.live (by rw [hpc]; rfl)
  have hphase := h.phase
  unfold Phase at hphase
  rw [hpc] at hphase
  obtain ⟨hcom, hclean, hgrp, hret, hdone⟩ := hphase
  obtain ⟨hact, hcur⟩ := hlive.quiet hcom
  have hpend : pending s = s.log.lh := by unfold pending; rw [hpc]
  have hhead : readHead ((s.bwrite c.start (Xv6.writeHead (s.bread c.start) s.log.lh)).disk
      c.start) =
      s.log.lh := by
    rw [State.bwrite_disk, if_pos rfl]
    exact readHead_writeHead _ _ hlive.le_logsize hlive.word
  -- the committed contents now include the last group
  have hdur : durable base { s.bwrite c.start (Xv6.writeHead (s.bread c.start) s.log.lh) with
      pc := .install 0, ncommitted := s.ncommitted + 1 } = applyGroups s.groups base := by
    change applyGroups (s.groups.take (s.ncommitted + 1)) base = _
    rw [List.take_of_length_le (by omega)]
  have hview : view base s = applyGroups s.groups base := by unfold view; rw [hcur]; rfl
  -- the last group writes listed blocks only
  have hlast : ∀ x, x ∉ s.log.lh →
      applyGroups s.groups base x = applyGroups (s.groups.take s.ncommitted) base x := by
    intro x hx
    conv_lhs => rw [← List.take_append_drop s.ncommitted s.groups]
    unfold applyGroups
    rw [List.flatten_append, applyWrites_append]
    apply applyWrites_of_not_mem
    intro w hw hwx
    exact hx (hwx ▸ hlive.listed w (List.mem_append_left _ hw))
  exact {
    size := h.size
    recov := {
      fits := by simp only [hhead]; exact hlive.lt_size
      home := by simp only [hhead]; exact hlive.home
      logged := by
        simp only [hhead]
        intro t x hx
        rw [State.bwrite_disk, if_neg (by omega), hdone t x hx, hview, hdur]
      rest := by
        simp only [hhead]
        intro x hx hnot
        rw [State.bwrite_disk, if_neg hx.ne_start, hdur]
        exact (h.recov.rest_of_clean hclean x hx).trans (hlast x hnot).symm }
    sync := fun x hx => State.bwrite_sync fun _ => h.sync_of hpend x hx
    pins := h.pins_of hpend
    live := fun _ => { hlive with
      reads := fun x hx => (State.bwrite_bread_ne hx.ne_start).trans (hlive.reads x hx)
      listed := fun w hw => by
        have hdrop : s.groups.drop (s.ncommitted + 1) = [] := List.drop_of_length_le (by omega)
        change w ∈ (s.groups.drop (s.ncommitted + 1)).flatten ++ s.cur at hw
        rw [hdrop, hcur] at hw
        cases hw }
    down := fun hr => by cases hr
    phase := by
      refine ⟨hcom, hhead, hgrp, congrArg (· + 1) hret, ?_⟩
      intro t ht
      omega }

theorem Inv.installCommitted (h : Inv c base s) (hpc : s.pc = .install tail)
    (hb : s.log.lh[tail]? = some b) : Inv c base { s.bwrite b (s.bread (c.start + tail + 1)) with
      pins := bunpin s.pins b, pc := .install (tail + 1) } := by
  have hlive := h.live (by rw [hpc]; rfl)
  have hphase := h.phase
  unfold Phase at hphase
  rw [hpc] at hphase
  obtain ⟨hcom, hhead, hgrp, hret, hdone⟩ := hphase
  obtain ⟨hlt, hget⟩ := List.getElem?_eq_some_iff.mp hb
  have hpend : pending s = s.log.lh.drop tail := by unfold pending; rw [hpc]
  have hhome : c.Home b := hlive.home b (List.mem_of_getElem? hb)
  have hsplit : s.log.lh.drop tail = b :: s.log.lh.drop (tail + 1) := by
    rw [List.drop_eq_getElem_cons hlt, hget]
  have hnd : b ∉ s.log.lh.drop (tail + 1) := by
    have := hlive.nodup.sublist (List.drop_sublist tail s.log.lh)
    rw [hsplit] at this
    exact (List.nodup_cons.mp this).1
  have hb' : (readHead (s.disk c.start))[tail]? = some b := hhead ▸ hb
  -- the log block is not pinned, so the cache holds what the disk holds
  have hlog : s.bread (c.start + tail + 1) = s.disk (c.start + tail + 1) := by
    refine State.bread_of_sync (h.sync _ fun hm => ?_)
    rw [hpend] at hm
    have hx := hlive.home _ (List.mem_of_mem_drop hm)
    exact hx.ne_slot (by have := hlive.lt_size; omega) rfl
  have hval : s.bread (c.start + tail + 1) = durable base s b := by
    rw [hlog]; exact h.recov.logged tail b hb'
  have hhead' : (s.bwrite b (s.bread (c.start + tail + 1))).disk c.start = s.disk c.start := by
    rw [State.bwrite_disk, if_neg hhome.ne_start.symm]
  have hview : view base s b = durable base s b := by
    rw [durable_of_all hgrp]
    unfold view
    rw [(hlive.quiet hcom).2]
    rfl
  exact {
    size := h.size
    recov := by
      have := h.recov.install hb'
      rw [← hlog] at this
      exact this
    sync := fun x hx => by
      refine State.bwrite_sync fun hne => h.sync x ?_
      rw [hpend, hsplit]
      have hx' : x ∉ s.log.lh.drop (tail + 1) := hx
      simp [hne, hx']
    pins := fun x => by
      have := h.pins x
      rw [hpend, hsplit] at this
      change bunpin s.pins b x = if x ∈ s.log.lh.drop (tail + 1) then 1 else 0
      unfold bunpin
      by_cases hx : x = b
      · subst hx; simp [this, hnd]
      · simpa [update_of_ne hx, hx] using this
    live := fun _ => { hlive with
      reads := fun x hx => by
        by_cases hxb : x = b
        · subst hxb
          exact (State.bread_of_some (by rw [State.bwrite_cache, if_pos rfl])).trans
            (hval.trans hview.symm)
        · exact (State.bwrite_bread_ne hxb).trans (hlive.reads x hx) }
    down := fun hr => by cases hr
    phase := by
      refine ⟨hcom, hhead' ▸ hhead, hgrp, hret, ?_⟩
      intro t ht x hx
      change (s.bwrite b (s.bread (c.start + tail + 1))).disk x = durable base s x
      rw [State.bwrite_disk]
      split
      · next hxb => rw [hxb]; exact hval
      · next hxb =>
        have hne : t ≠ tail := by
          intro e
          subst e
          exact hxb (Option.some.inj (hx.symm.trans hb))
        exact hdone t (by omega) x hx }

theorem Recoverable.all_installed {n : ℕ} (h : Recoverable c disk H)
    (hn : (readHead (disk c.start)).length ≤ n)
    (hd : ∀ t < n, ∀ b, (readHead (disk c.start))[t]? = some b → disk b = H b) (b : ℕ)
    (hb : c.Home b) : disk b = H b := by
  by_cases hm : b ∈ readHead (disk c.start)
  · obtain ⟨t, ht⟩ := List.mem_iff_getElem?.mp hm
    have hlt := (List.getElem?_eq_some_iff.mp ht).1
    exact hd t (by omega) b ht
  · exact h.rest b hb hm

theorem Inv.installDone (h : Inv c base s) (hpc : s.pc = .install tail)
    (hb : s.log.lh[tail]? = none) : Inv c base { s with pc := .clearHead } := by
  obtain ⟨hlive, hcom, hhead, hgrp, hret, hdone⟩ := h.phase_at hpc rfl
  have hlen : s.log.lh.length ≤ tail := List.getElem?_eq_none_iff.mp hb
  have hpend : pending s = [] := by
    unfold pending
    rw [hpc]
    exact List.drop_of_length_le hlen
  exact {
    size := h.size
    recov := h.recov
    sync := fun x _ => h.sync_of hpend x List.not_mem_nil
    pins := h.pins_of hpend
    live := fun _ => { hlive with }
    down := fun hr => by cases hr
    phase := ⟨hcom, hhead, hgrp, hret, h.recov.all_installed (hhead ▸ hlen)
      (hhead ▸ hdone)⟩ }

theorem Recoverable.clear (buf : Block) (hd : ∀ b, c.Home b → s.disk b = H b) :
    Recoverable c (s.bwrite c.start (Xv6.writeHead buf [])).disk H := by
  refine Recoverable.of_clean ?_ fun x hx => ?_
  · rw [State.bwrite_disk, if_pos rfl]
    exact readHead_writeHead_nil buf
  · rw [State.bwrite_disk, if_neg hx.ne_start]
    exact hd x hx

theorem Inv.clearHeadBlock (h : Inv c base s) (hpc : s.pc = .clearHead) :
    Inv c base { s.bwrite c.start (Xv6.writeHead (s.bread c.start) []) with
      log := s.log.clear, pc := .committed, nreturned := s.nreturned + 1 } := by
  obtain ⟨hlive, hcom, hhead, hgrp, hret, hdone⟩ := h.phase_at hpc rfl
  have hpend : pending s = [] := by unfold pending; rw [hpc]
  have hrec := Recoverable.clear (s.bread c.start) hdone
  exact {
    size := h.size
    recov := hrec
    sync := fun x hx => State.bwrite_sync fun _ => h.sync_of hpend x hx
    pins := h.pins_of hpend
    live := fun _ => {
      reads := fun x hx => (State.bwrite_bread_ne hx.ne_start).trans (hlive.reads x hx)
      nodup := List.nodup_nil
      home := fun b hb => by cases hb
      word := fun b hb => by cases hb
      le_logsize := Nat.zero_le _
      lt_size := c.size_pos
      listed := fun w hw => by
        change w ∈ (s.groups.drop s.ncommitted).flatten ++ s.cur at hw
        rw [hgrp, List.drop_length, (hlive.quiet hcom).2] at hw
        cases hw
      outstanding := hlive.outstanding
      quiet := hlive.quiet }
    down := fun hr => by cases hr
    phase := ⟨hcom, by
      rw [State.bwrite_disk, if_pos rfl]
      exact readHead_writeHead_nil _, hgrp, hret, rfl⟩ }

theorem Inv.endCommit (h : Inv c base s) (hpc : s.pc = .committed) :
    Inv c base { s with log := s.log.endCommit, pc := .running } := by
  obtain ⟨hlive, hcom, hhead, hgrp, hret, hlh⟩ := h.phase_at hpc rfl
  have hpend : pending s = [] := by unfold pending; rw [hpc]
  have hpend' : pending { s with log := s.log.endCommit, pc := .running } = [] := hlh
  exact {
    size := h.size
    recov := h.recov
    sync := fun x _ => h.sync_of hpend x List.not_mem_nil
    pins := fun x => by
      have := h.pins x
      rw [hpend] at this
      rw [hpend']
      exact this
    live := fun _ => { hlive with
      quiet := fun hc => by cases hc }
    down := fun hr => by cases hr
    phase := ⟨rfl, hhead, hgrp, hret⟩ }

end Xv6.CrashLog
