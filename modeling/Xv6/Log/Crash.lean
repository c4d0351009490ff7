import Xv6.Log.Commit

/-! # Crash atomicity of the log

Recovery, crashes, and the record of which operation wrote into which commit group. -/

namespace Xv6.CrashLog
open Xv6
set_option autoImplicit false
open Function (update update_self update_of_ne)

variable {c : Layout} {base : ℕ → Block} {s s' : State}

/-! ## Recovery and crashes -/

section
variable (h : Inv c base s)
include h

theorem Inv.crash : Inv c base (crash c s) where
  size := rfl
  recov := h.recov
  sync := fun _ _ => .inl rfl
  pins := fun _ => rfl
  live := fun hr => by cases hr
  down := fun _ => {
    active := rfl
    cur := rfl
    outstanding := rfl
    committing := rfl
    returned := by
      change s.nreturned ≤ s.ncommitted
      cases hr : s.pc.recovering with
      | true => exact (h.down hr).returned
      | false =>
        have hp := h.phase
        unfold Phase at hp
        cases hpc : s.pc <;> simp_all [Pc.recovering] <;> omega
    committed := by
      change s.ncommitted ≤ s.groups.length
      cases hr : s.pc.recovering with
      | true => exact (h.down hr).committed
      | false =>
        have hp := h.phase
        unfold Phase at hp
        cases hpc : s.pc <;> simp_all [Pc.recovering] <;> omega }
  phase := trivial

theorem Inv.bread_recovering (hr : s.pc.recovering = true) (b : ℕ) : s.bread b = s.disk b := by
  refine State.bread_of_sync (h.sync b ?_)
  unfold pending
  cases hpc : s.pc <;> simp_all [Pc.recovering]

theorem Inv.pins_recovering (hr : s.pc.recovering = true) (b : ℕ) : s.pins b = 0 := by
  rw [h.pins b, if_neg]
  unfold pending
  cases hpc : s.pc <;> simp_all [Pc.recovering]

theorem Inv.sync_recovering (hr : s.pc.recovering = true) (b : ℕ) :
    s.cache b = none ∨ s.cache b = some (s.disk b) := by
  refine h.sync b ?_
  unfold pending
  cases hpc : s.pc <;> simp_all [Pc.recovering]

theorem Inv.recRead (hpc : s.pc = .recRead) : Inv c base { s with
      log := { s.log with lh := readHead (s.bread c.start) }, pc := .recInstall 0 } := by
  have hr : s.pc.recovering = true := by rw [hpc]; rfl
  have hd := h.down hr
  exact {
    size := h.size
    recov := h.recov
    sync := fun b _ => h.sync_recovering hr b
    pins := fun b => h.pins_recovering hr b
    live := fun hr' => by cases hr'
    down := fun _ => { hd with }
    phase := by
      refine ⟨congrArg readHead (h.bread_recovering hr c.start).symm, ?_⟩
      intro t ht
      omega }

theorem Inv.recInstallBlock {tail b : ℕ} (hpc : s.pc = .recInstall tail)
    (hb : s.log.lh[tail]? = some b) :
    Inv c base { s.bwrite b (s.bread (c.start + tail + 1)) with pc := .recInstall (tail + 1) } := by
  have hr : s.pc.recovering = true := by rw [hpc]; rfl
  have hphase := h.phase
  unfold Phase at hphase
  rw [hpc] at hphase
  obtain ⟨hhead, hdone⟩ := hphase
  have hb' : (readHead (s.disk c.start))[tail]? = some b := hhead ▸ hb
  have hhome := h.recov.home b (List.mem_of_getElem? hb')
  have hlog := h.bread_recovering hr (c.start + tail + 1)
  have hhead' : (s.bwrite b (s.bread (c.start + tail + 1))).disk c.start = s.disk c.start := by
    rw [State.bwrite_disk, if_neg hhome.ne_start.symm]
  exact {
    size := h.size
    recov := by
      have := h.recov.install hb'
      rw [← hlog] at this
      exact this
    sync := fun x _ => State.bwrite_sync fun _ => h.sync_recovering hr x
    pins := fun x => h.pins_recovering hr x
    live := fun hr' => by cases hr'
    down := fun _ => { h.down hr with }
    phase := by
      refine ⟨hhead' ▸ hhead, ?_⟩
      intro t ht x hx
      change (s.bwrite b (s.bread (c.start + tail + 1))).disk x = durable base s x
      rw [State.bwrite_disk]
      split
      · next hxb => rw [hxb, hlog]; exact h.recov.logged tail b hb'
      · next hxb =>
        have hne : t ≠ tail := by
          intro e
          subst e
          exact hxb (Option.some.inj (hx.symm.trans hb))
        exact hdone t (by omega) x hx }

theorem Inv.recInstallDone {tail : ℕ} (hpc : s.pc = .recInstall tail)
    (hb : s.log.lh[tail]? = none) : Inv c base { s with pc := .recClear } := by
  have hr : s.pc.recovering = true := by rw [hpc]; rfl
  have hphase := h.phase
  unfold Phase at hphase
  rw [hpc] at hphase
  obtain ⟨hhead, hdone⟩ := hphase
  have hlen : s.log.lh.length ≤ tail := List.getElem?_eq_none_iff.mp hb
  exact {
    size := h.size
    recov := h.recov
    sync := fun x _ => h.sync_recovering hr x
    pins := fun x => h.pins_recovering hr x
    live := fun hr' => by cases hr'
    down := fun _ => { h.down hr with }
    phase := h.recov.all_installed (hhead ▸ hlen) (hhead ▸ hdone) }

theorem Inv.recClearBlock (hpc : s.pc = .recClear) :
    Inv c base { s.bwrite c.start (Xv6.writeHead (s.bread c.start) []) with
      log := s.log.clear
      pc := .running
      groups := s.groups.take s.ncommitted
      nreturned := s.ncommitted } := by
  have hr : s.pc.recovering = true := by rw [hpc]; rfl
  have hd := h.down hr
  have hphase : ∀ b, c.Home b → s.disk b = durable base s b := by
    have := h.phase
    unfold Phase at this
    rwa [hpc] at this
  have hlen : (s.groups.take s.ncommitted).length = s.ncommitted := by
    have := hd.committed
    simp
    omega
  have hdur : applyGroups ((s.groups.take s.ncommitted).take s.ncommitted) base =
      durable base s := by
    unfold durable
    rw [List.take_take, Nat.min_self]
  exact {
    size := h.size
    recov := by
      have := Recoverable.clear (s.bread c.start) hphase
      rw [← hdur] at this
      exact this
    sync := fun x _ => State.bwrite_sync fun _ => h.sync_recovering hr x
    pins := fun x => h.pins_recovering hr x
    live := fun _ => {
      reads := fun x hx => by
        have hx' : applyWrites s.cur (applyGroups (s.groups.take s.ncommitted) base) x =
            durable base s x := by rw [hd.cur]; rfl
        refine Eq.trans ?_ hx'.symm
        exact (State.bwrite_bread_ne hx.ne_start).trans
          ((h.bread_recovering hr x).trans (hphase x hx))
      nodup := List.nodup_nil
      home := fun b hb => by cases hb
      word := fun b hb => by cases hb
      le_logsize := Nat.zero_le _
      lt_size := c.size_pos
      listed := fun w hw => by
        change w ∈ ((s.groups.take s.ncommitted).drop s.ncommitted).flatten ++ s.cur at hw
        rw [List.drop_of_length_le (by omega), hd.cur] at hw
        cases hw
      outstanding := by
        change s.log.outstanding = s.active.length
        rw [hd.outstanding, hd.active]
        rfl
      quiet := fun hc => by
        have hc' : s.log.committing = true := hc
        rw [hd.committing] at hc'
        cases hc' }
    down := fun hr' => by cases hr'
    phase := ⟨hd.committing, by
      rw [State.bwrite_disk, if_pos rfl]
      exact readHead_writeHead_nil _, hlen.symm, rfl⟩ }

/-! ## Every step -/

theorem Inv.advance (hs : CrashLog.advance c s = some s') : Inv c base s' := by
  unfold CrashLog.advance at hs
  split at hs
  · cases hs
  · next tail hpc =>
    split at hs
    · next b hb =>
      cases hs
      exact ((h.fetch (c.start + tail + 1)).fetch b).writeLogBlock hpc hb
    · next hb =>
      cases hs
      exact h.writeLogDone hpc hb
  · next hpc =>
    cases hs
    exact (h.fetch c.start).writeHeadBlock hpc
  · next tail hpc =>
    split at hs
    · next b hb =>
      cases hs
      exact ((h.fetch (c.start + tail + 1)).fetch b).installCommitted hpc hb
    · next hb =>
      cases hs
      exact h.installDone hpc hb
  · next hpc =>
    cases hs
    exact (h.fetch c.start).clearHeadBlock hpc
  · next hpc =>
    cases hs
    exact h.endCommit hpc
  · next hpc =>
    cases hs
    exact (h.fetch c.start).recRead hpc
  · next tail hpc =>
    split at hs
    · next b hb =>
      cases hs
      exact ((h.fetch (c.start + tail + 1)).fetch b).recInstallBlock hpc hb
    · next hb =>
      cases hs
      exact h.recInstallDone hpc hb
  · next hpc =>
    cases hs
    exact (h.fetch c.start).recClearBlock hpc

theorem Inv.next {e : Event} (hs : CrashLog.next c s e = some s') : Inv c base s' := by
  cases e with
  | beginOp => exact h.beginOp hs
  | logWrite i b data => exact h.logWrite hs
  | endOp i => exact h.endOp hs
  | bread b =>
    cases hs
    exact h.fetch b
  | evict b =>
    simp only [CrashLog.next] at hs
    split at hs
    · next hb =>
      cases hs
      exact h.evict b hb
    · cases hs
  | advance => exact h.advance hs
  | crash =>
    cases hs
    exact h.crash

end

theorem inv_boot (hclean : readHead (base c.start) = []) : Inv c base (boot c base) where
  size := rfl
  recov := Recoverable.of_clean hclean fun _ _ => rfl
  sync := fun _ _ => .inl rfl
  pins := fun _ => rfl
  live := fun _ => {
    reads := fun _ _ => rfl
    nodup := List.nodup_nil
    home := fun b hb => by cases hb
    word := fun b hb => by cases hb
    le_logsize := Nat.zero_le _
    lt_size := c.size_pos
    listed := fun w hw => by cases hw
    outstanding := rfl
    quiet := fun hc => by cases hc }
  down := fun hr => by cases hr
  phase := ⟨rfl, hclean, rfl, rfl⟩

theorem inv_reachable (hclean : readHead (base c.start) = []) (h : (sys c base).Reachable s) :
    Inv c base s :=
  h.invariant (fun _ h0 => h0 ▸ inv_boot hclean) fun _ _ _ hi hs => hi.next hs

/-! ## Which operation wrote into which group -/

def Separate (gs : List (List Write)) : Prop :=
  gs.Pairwise fun g g' => ∀ w ∈ g, ∀ w' ∈ g', w.op ≠ w'.op

/-- The record of writes: an operation that is open, or whose group is, has all its writes in the
open group; one found in a closed group has all its writes there and will not write again. -/
structure Tagged (s : State) : Prop where
  nodup : s.active.Nodup
  used : ∀ i ∈ s.active, i < s.nextOp
  unused : ∀ i, s.nextOp ≤ i → s.hist i = []
  opened : ∀ i, (i ∈ s.active ∨ ∃ w ∈ s.cur, w.op = i) → s.cur.filter (·.op = i) = s.hist i
  closed : ∀ g ∈ s.groups, ∀ w ∈ g, g.filter (·.op = w.op) = s.hist w.op
  ended : ∀ g ∈ s.groups, ∀ w ∈ g, w.op ∉ s.active ∧ ∀ v ∈ s.cur, v.op ≠ w.op
  separate : Separate s.groups

theorem Tagged.op_lt {i : ℕ} {ws : List Write} {w : Write} (h : Tagged s) (hw : w ∈ ws)
    (hi : w.op = i) (hf : ws.filter (·.op = i) = s.hist i) : i < s.nextOp := by
  by_contra hge
  rw [h.unused i (by omega)] at hf
  have : w ∈ ws.filter (·.op = i) := List.mem_filter.mpr ⟨hw, by simpa using hi⟩
  rw [hf] at this
  cases this

theorem Tagged.of_sublist (h : Tagged s) (hn : s'.nextOp = s.nextOp) (ha : s'.active = s.active)
    (hh : s'.hist = s.hist) (hc : s'.cur = s.cur) (hg : s'.groups.Sublist s.groups) :
    Tagged s' where
  nodup := ha ▸ h.nodup
  used := by rw [ha, hn]; exact h.used
  unused := by rw [hn, hh]; exact h.unused
  opened := by rw [ha, hc, hh]; exact h.opened
  closed := by rw [hh]; exact fun g hg' => h.closed g (hg.subset hg')
  ended := by rw [ha, hc]; exact fun g hg' => h.ended g (hg.subset hg')
  separate := h.separate.sublist hg

theorem Tagged.beginOp (h : Tagged s) (hs : CrashLog.beginOp s = some s') : Tagged s' := by
  obtain ⟨-, -, rfl⟩ := beginOp_eq_some hs
  have hcur : ∀ w ∈ s.cur, w.op < s.nextOp := fun w hw =>
    h.op_lt hw rfl (h.opened w.op (.inr ⟨w, hw, rfl⟩))
  exact {
    nodup := List.nodup_cons.mpr ⟨fun hm => Nat.lt_irrefl _ (h.used _ hm), h.nodup⟩
    used := fun i hi => by
      rcases List.mem_cons.mp hi with rfl | hi
      · exact Nat.lt_succ_self _
      · exact Nat.lt_succ_of_lt (h.used i hi)
    unused := fun i hi => h.unused i (Nat.le_of_succ_le hi)
    opened := fun i hi => by
      by_cases hnew : i = s.nextOp
      · -- the new operation has written nothing
        subst hnew
        change s.cur.filter (·.op = s.nextOp) = s.hist s.nextOp
        rw [h.unused _ (le_refl _), List.filter_eq_nil_iff]
        intro w hw
        have := hcur w hw
        simp
        omega
      · refine h.opened i ?_
        rcases hi with hi | hi
        · exact .inl ((List.mem_cons.mp hi).resolve_left hnew)
        · exact .inr hi
    closed := h.closed
    ended := fun g hg w hw => by
      refine ⟨fun hm => ?_, (h.ended g hg w hw).2⟩
      rcases List.mem_cons.mp hm with he | hm
      · have := h.op_lt hw rfl (h.closed g hg w hw)
        omega
      · exact (h.ended g hg w hw).1 hm
    separate := h.separate }

theorem Tagged.logWrite {i b : ℕ} {data : Block} (h : Tagged s)
    (hs : CrashLog.logWrite c s i b data = some s') : Tagged s' := by
  unfold CrashLog.logWrite at hs
  split at hs
  case isFalse => cases hs
  next hcond =>
  have hi := hcond.1
  split at hs
  · cases hs
  next l new hw =>
  cases hs
  exact {
    nodup := h.nodup
    used := h.used
    unused := fun j hj => by
      have hne : j ≠ i := fun e => Nat.lt_irrefl _ ((h.used i hi).trans_le (e ▸ hj))
      change update s.hist i _ j = []
      rw [update_of_ne hne]
      exact h.unused j hj
    opened := fun j hj => by
      change (s.cur ++ [(⟨i, b, data⟩ : Write)]).filter (·.op = j) = update s.hist i _ j
      rw [List.filter_append]
      by_cases hji : j = i
      · subst hji
        rw [update_self, h.opened j (.inl hi)]
        simp [State.modify, State.fetch]
      · rw [update_of_ne hji]
        have hj' : j ∈ s.active ∨ ∃ w ∈ s.cur, w.op = j := by
          rcases hj with hj | ⟨w, hw, hwj⟩
          · exact .inl hj
          · rcases List.mem_append.mp hw with hw | hw
            · exact .inr ⟨w, hw, hwj⟩
            · obtain rfl := List.mem_singleton.mp hw
              exact absurd hwj.symm hji
        have hne : ¬ i = j := fun e => hji e.symm
        simpa [hne, State.modify, State.fetch] using h.opened j hj'
    closed := fun g hg w hw => by
      have hne : w.op ≠ i := fun e => (h.ended g hg w hw).1 (e ▸ hi)
      change g.filter (·.op = w.op) = update s.hist i _ w.op
      rw [update_of_ne hne]
      exact h.closed g hg w hw
    ended := fun g hg w hw => by
      refine ⟨(h.ended g hg w hw).1, fun v hv => ?_⟩
      rcases List.mem_append.mp hv with hv | hv
      · exact (h.ended g hg w hw).2 v hv
      · obtain rfl := List.mem_singleton.mp hv
        exact fun e => (h.ended g hg w hw).1 (e ▸ hi)
    separate := h.separate }

theorem Tagged.close (h : Tagged s) (hn : s'.nextOp = s.nextOp) (ha : s'.active = [])
    (hh : s'.hist = s.hist) (hc : s'.cur = []) (hg : s'.groups = s.groups ++ [s.cur]) :
    Tagged s' where
  nodup := by rw [ha]; exact List.nodup_nil
  used := by rw [ha]; intro i hi; cases hi
  unused := by rw [hn, hh]; exact h.unused
  opened := by
    rw [ha, hc]
    rintro i (hi | ⟨w, hw, -⟩)
    · cases hi
    · cases hw
  closed := by
    rw [hg, hh]
    intro g hgm w hw
    rcases List.mem_append.mp hgm with hgm | hgm
    · exact h.closed g hgm w hw
    · obtain rfl := List.mem_singleton.mp hgm
      exact h.opened w.op (.inr ⟨w, hw, rfl⟩)
  ended := by
    rw [ha, hc]
    intro g _ w _
    exact ⟨List.not_mem_nil, fun v hv => by cases hv⟩
  separate := by
    rw [hg]
    refine List.pairwise_append.mpr ⟨h.separate, List.pairwise_singleton _ _, ?_⟩
    intro g hgm g' hg' w hw w' hw'
    obtain rfl := List.mem_singleton.mp hg'
    exact ((h.ended g hgm w hw).2 w' hw').symm

theorem Tagged.endOp {i : ℕ} (hI : Inv c base s) (h : Tagged s)
    (hs : CrashLog.endOp s i = some s') :
    Tagged s' := by
  unfold CrashLog.endOp at hs
  split at hs
  case isFalse => cases hs
  next hi =>
  have hlive := hI.live (by rw [hI.running_of_mem hi]; rfl)
  split at hs
  · cases hs
  · next l hl =>
    cases hs
    have hsub : ∀ j, j ∈ s.active.erase i → j ∈ s.active := fun j hj => List.mem_of_mem_erase hj
    exact {
      nodup := h.nodup.erase i
      used := fun j hj => h.used j (hsub j hj)
      unused := h.unused
      opened := fun j hj => h.opened j (hj.imp_left (hsub j))
      closed := h.closed
      ended := fun g hg w hw => ⟨fun hm => (h.ended g hg w hw).1 (hsub _ hm), (h.ended g hg w hw).2⟩
      separate := h.separate }
  · next l hl =>
    obtain ⟨-, ⟨hz, -, -⟩ | ⟨-, hc, -⟩⟩ := Log.endOp_eq_ok hl
    · have hnil : s.active.erase i = [] := by
        apply List.eq_nil_of_length_eq_zero
        rw [List.length_erase_of_mem hi, ← hlive.outstanding]
        exact hz
      split at hs
      all_goals
        cases hs
        exact h.close rfl hnil rfl rfl rfl
    · cases hc

theorem advance_record (hs : CrashLog.advance c s = some s') :
    s'.nextOp = s.nextOp ∧ s'.active = s.active ∧ s'.hist = s.hist ∧ s'.cur = s.cur ∧
      s'.groups.Sublist s.groups := by
  unfold CrashLog.advance at hs
  have hsame : s.groups.Sublist s.groups := List.Sublist.refl _
  split at hs
  · cases hs
  · split at hs <;> (obtain rfl := Option.some.inj hs; exact ⟨rfl, rfl, rfl, rfl, hsame⟩)
  · cases hs
    exact ⟨rfl, rfl, rfl, rfl, hsame⟩
  · split at hs <;> (obtain rfl := Option.some.inj hs; exact ⟨rfl, rfl, rfl, rfl, hsame⟩)
  · cases hs
    exact ⟨rfl, rfl, rfl, rfl, hsame⟩
  · cases hs
    exact ⟨rfl, rfl, rfl, rfl, hsame⟩
  · cases hs
    exact ⟨rfl, rfl, rfl, rfl, hsame⟩
  · split at hs <;> (obtain rfl := Option.some.inj hs; exact ⟨rfl, rfl, rfl, rfl, hsame⟩)
  · cases hs
    exact ⟨rfl, rfl, rfl, rfl, List.take_sublist ..⟩

theorem Tagged.crash (h : Tagged s) : Tagged (crash c s) where
  nodup := List.nodup_nil
  used := fun i hi => by cases hi
  unused := h.unused
  opened := by
    rintro i (hi | ⟨w, hw, -⟩)
    · cases hi
    · cases hw
  closed := h.closed
  ended := fun g hg w hw => ⟨List.not_mem_nil, fun v hv => by cases hv⟩
  separate := h.separate

theorem Tagged.next {e : Event} (hI : Inv c base s) (h : Tagged s)
    (hs : CrashLog.next c s e = some s') : Tagged s' := by
  cases e with
  | beginOp => exact h.beginOp hs
  | logWrite i b data => exact h.logWrite hs
  | endOp i => exact h.endOp hI hs
  | bread b =>
    cases hs
    exact h.of_sublist rfl rfl rfl rfl (List.Sublist.refl _)
  | evict b =>
    simp only [CrashLog.next] at hs
    split at hs
    · cases hs
      exact h.of_sublist rfl rfl rfl rfl (List.Sublist.refl _)
    · cases hs
  | advance =>
    obtain ⟨hn, ha, hh, hc, hg⟩ := advance_record hs
    exact h.of_sublist hn ha hh hc hg
  | crash =>
    cases hs
    exact h.crash

theorem tagged_boot : Tagged (boot c base) where
  nodup := List.nodup_nil
  used := fun i hi => by cases hi
  unused := fun _ _ => rfl
  opened := by
    rintro i (hi | ⟨w, hw, -⟩)
    · cases hi
    · cases hw
  closed := fun g hg => by cases hg
  ended := fun g hg => by cases hg
  separate := List.Pairwise.nil

theorem tagged_reachable (hclean : readHead (base c.start) = []) (h : (sys c base).Reachable s) :
    Tagged s :=
  (h.invariant (I := fun s => Inv c base s ∧ Tagged s)
    (fun _ h0 => h0 ▸ ⟨inv_boot hclean, tagged_boot⟩)
    fun _ _ _ hi hs => ⟨hi.1.next hs, hi.2.next hi.1 hs⟩).2

/-! ## Crash atomicity -/

/-- On every run, with crashes anywhere (in recovery as well): when `recover_from_log` completes,
the home blocks are what the first `k` commit groups make of the original image, where `k` counts at
least the groups whose `commit` returned; and all writes of an operation that is in a group are in
that group and in no other. -/
theorem crash_atomic (c : Layout) (base : ℕ → Block) (hclean : readHead (base c.start) = [])
    (s : State) (h : (sys c base).Reachable s) :
    (∀ s', s.pc = .recClear → CrashLog.next c s .advance = some s' →
      ∃ k, s.nreturned ≤ k ∧ k ≤ s.groups.length ∧
        ∀ b, c.Home b → s'.disk b = applyGroups (s.groups.take k) base b) ∧
    (∀ g ∈ s.groups, ∀ w ∈ g, g.filter (·.op = w.op) = s.hist w.op) ∧ Separate s.groups := by
  have hI := inv_reachable hclean h
  have hT := tagged_reachable hclean h
  refine ⟨?_, hT.closed, hT.separate⟩
  intro s' hpc hs
  have hd := hI.down (by rw [hpc]; rfl)
  refine ⟨s.ncommitted, hd.returned, hd.committed, fun b hb => ?_⟩
  have hI' := hI.next hs
  have hs' : CrashLog.advance c s = some s' := hs
  simp only [CrashLog.advance, hpc] at hs'
  obtain rfl := Option.some.inj hs'
  have hphase := hI'.phase
  have hrest := hI'.recov.rest_of_clean hphase.2.1 b hb
  rw [hrest, durable_of_all hphase.2.2.1]

/-- One operation logs block 46, power fails right after the header is written, and recovery copies
the block home. -/
def commitThenCrash : List Event :=
  [.beginOp, .logWrite 0 46 (ByteBlock.fill BSIZE 7), .endOp 0, .advance, .advance, .advance,
    .crash,
    .advance, .advance, .advance]

theorem crash_atomic_commitThenCrash :
    ∃ s s', (sys ⟨2, 30, by decide⟩ fun _ => ByteBlock.fill BSIZE 0).Reachable s ∧
      s.pc = .recClear ∧
      CrashLog.next ⟨2, 30, by decide⟩ s .advance = some s' ∧ s.groups.length = 1 ∧
      ∃ k, s.nreturned ≤ k ∧ k ≤ s.groups.length ∧ ∀ b, Layout.Home ⟨2, 30, by decide⟩ b →
        s'.disk b = applyGroups (s.groups.take k) (fun _ => ByteBlock.fill BSIZE 0) b := by
  have he : ((TransSys.exec (CrashLog.next ⟨2, 30, by decide⟩)
      (boot ⟨2, 30, by decide⟩ fun _ => ByteBlock.fill BSIZE 0) commitThenCrash).map
        fun s => (s.pc, s.groups.length)) = some (.recClear, 1) := by
    decide +kernel
  obtain ⟨s, hs, hpc⟩ := Option.map_eq_some_iff.mp he
  obtain ⟨hpc, hlen⟩ := Prod.mk.inj hpc
  have hr : (sys ⟨2, 30, by decide⟩ fun _ => ByteBlock.fill BSIZE 0).Reachable s :=
    (TransSys.Reachable.init rfl).run (TransSys.Run.of_exec (fun _ _ _ h => h) hs)
  have hclean : readHead (ByteBlock.fill BSIZE 0) = [] := by
    simp [readHead, ByteBlock.getWord_fill_zero]
  obtain ⟨s', hs'⟩ : ∃ s', CrashLog.next ⟨2, 30, by decide⟩ s .advance = some s' := by
    simp [CrashLog.next, CrashLog.advance, hpc]
  exact ⟨s, s', hr, hpc, hs', hlen, (crash_atomic ⟨2, 30, by decide⟩ _ hclean s hr).1 s' hpc hs'⟩

end Xv6.CrashLog
