import Xv6.Log.Machine

/-! # The invariant of the log, and the operations that keep it

The invariant has one part that holds at every step, `Recoverable`: the blocks the on-disk header
announces have their committed contents in the log, and every other home block has them in place.
The rest, by program counter, is what carries `Recoverable` from one step to the next.
-/

namespace Xv6.CrashLog
open Xv6
set_option autoImplicit false
open Function (update update_of_ne update_apply)

variable {c : Layout} {base : ℕ → Block} {s s' : State} {l : Log} {b i : ℕ}

/-! ## The invariant -/

/-- What the home blocks hold once every committed group is installed. -/
def durable (base : ℕ → Block) (s : State) : ℕ → Block :=
  applyGroups (s.groups.take s.ncommitted) base

/-- What the operations see: every closed group and the writes of the open one. -/
def view (base : ℕ → Block) (s : State) : ℕ → Block :=
  applyWrites s.cur (applyGroups s.groups base)

/-- A disk from which recovery restores `H`. -/
structure Recoverable (c : Layout) (disk : ℕ → Block) (H : ℕ → Block) : Prop where
  fits : (readHead (disk c.start)).length < c.size
  home : ∀ b ∈ readHead (disk c.start), c.Home b
  logged : ∀ t b, (readHead (disk c.start))[t]? = some b → disk (c.start + t + 1) = H b
  rest : ∀ b, c.Home b → b ∉ readHead (disk c.start) → disk b = H b

def pending (s : State) : List ℕ :=
  match s.pc with
  | .running | .writeLog _ | .writeHead => s.log.lh
  | .install tail => s.log.lh.drop tail
  | _ => []

structure Live (c : Layout) (base : ℕ → Block) (s : State) : Prop where
  reads : ∀ b, c.Home b → s.bread b = view base s b
  nodup : s.log.lh.Nodup
  home : ∀ b ∈ s.log.lh, c.Home b
  word : ∀ b ∈ s.log.lh, b < 4294967296
  le_logsize : s.log.lh.length ≤ LOGSIZE
  lt_size : s.log.lh.length < c.size
  listed : ∀ w ∈ (s.groups.drop s.ncommitted).flatten ++ s.cur, w.block ∈ s.log.lh
  outstanding : s.log.outstanding = s.active.length
  quiet : s.log.committing = true → s.active = [] ∧ s.cur = []

structure Down (s : State) : Prop where
  active : s.active = []
  cur : s.cur = []
  outstanding : s.log.outstanding = 0
  committing : s.log.committing = false
  returned : s.nreturned ≤ s.ncommitted
  committed : s.ncommitted ≤ s.groups.length

/-- What each program counter adds. -/
def Phase (c : Layout) (base : ℕ → Block) (s : State) : Prop :=
  match s.pc with
  | .running => s.log.committing = false ∧ readHead (s.disk c.start) = [] ∧
      s.ncommitted = s.groups.length ∧ s.nreturned = s.ncommitted
  | .writeLog tail => s.log.committing = true ∧ readHead (s.disk c.start) = [] ∧
      s.ncommitted + 1 = s.groups.length ∧ s.nreturned = s.ncommitted ∧
      ∀ t < tail, ∀ b, s.log.lh[t]? = some b → s.disk (c.start + t + 1) = view base s b
  | .writeHead => s.log.committing = true ∧ readHead (s.disk c.start) = [] ∧
      s.ncommitted + 1 = s.groups.length ∧ s.nreturned = s.ncommitted ∧
      ∀ t b, s.log.lh[t]? = some b → s.disk (c.start + t + 1) = view base s b
  | .install tail => s.log.committing = true ∧ readHead (s.disk c.start) = s.log.lh ∧
      s.ncommitted = s.groups.length ∧ s.nreturned + 1 = s.ncommitted ∧
      ∀ t < tail, ∀ b, s.log.lh[t]? = some b → s.disk b = durable base s b
  | .clearHead => s.log.committing = true ∧ readHead (s.disk c.start) = s.log.lh ∧
      s.ncommitted = s.groups.length ∧ s.nreturned + 1 = s.ncommitted ∧
      ∀ b, c.Home b → s.disk b = durable base s b
  | .committed => s.log.committing = true ∧ readHead (s.disk c.start) = [] ∧
      s.ncommitted = s.groups.length ∧ s.nreturned = s.ncommitted ∧ s.log.lh = []
  | .recRead => True
  | .recInstall tail => readHead (s.disk c.start) = s.log.lh ∧
      ∀ t < tail, ∀ b, s.log.lh[t]? = some b → s.disk b = durable base s b
  | .recClear => ∀ b, c.Home b → s.disk b = durable base s b

structure Inv (c : Layout) (base : ℕ → Block) (s : State) : Prop where
  size : s.log.size = c.size
  recov : Recoverable c s.disk (durable base s)
  sync : ∀ b, b ∉ pending s → s.cache b = none ∨ s.cache b = some (s.disk b)
  pins : ∀ b, s.pins b = if b ∈ pending s then 1 else 0
  live : s.pc.recovering = false → Live c base s
  down : s.pc.recovering = true → Down s
  phase : Phase c base s

theorem Inv.sync_of {l : List ℕ} (h : Inv c base s) (hl : pending s = l) (b : ℕ) (hb : b ∉ l) :
    s.cache b = none ∨ s.cache b = some (s.disk b) :=
  h.sync b (by rw [hl]; exact hb)

theorem Inv.pins_of {l : List ℕ} (h : Inv c base s) (hl : pending s = l) (b : ℕ) :
    s.pins b = if b ∈ l then 1 else 0 := by
  rw [h.pins b, hl]

theorem Inv.running (h : Inv c base s) (hpc : s.pc = .running) : Live c base s ∧
    pending s = s.log.lh ∧ s.log.committing = false ∧ readHead (s.disk c.start) = [] ∧
    s.ncommitted = s.groups.length ∧ s.nreturned = s.ncommitted := by
  have hphase := h.phase
  unfold Phase at hphase
  rw [hpc] at hphase
  refine ⟨h.live (by rw [hpc]; rfl), ?_, hphase⟩
  unfold pending
  rw [hpc]

/-! ## Reading through the cache -/

theorem State.bread_of_none (h : s.cache b = none) : s.bread b = s.disk b := by
  simp [State.bread, h]

theorem State.bread_of_some {v : Block} (h : s.cache b = some v) : s.bread b = v := by
  simp [State.bread, h]

theorem State.bread_of_sync (h : s.cache b = none ∨ s.cache b = some (s.disk b)) :
    s.bread b = s.disk b := by
  rcases h with h | h
  · exact State.bread_of_none h
  · exact State.bread_of_some h

theorem State.bread_fetch (b x : ℕ) : (s.fetch b).bread x = s.bread x := by
  by_cases h : x = b
  · subst h; simp [State.bread, State.fetch]
  · simp [State.bread, State.fetch, update_of_ne h]

theorem Inv.fetch (h : Inv c base s) (b : ℕ) : Inv c base (s.fetch b) where
  size := h.size
  recov := h.recov
  sync := by
    intro x hx
    have hx' : x ∉ pending s := hx
    by_cases hxb : x = b
    · subst hxb
      right
      have := State.bread_of_sync (h.sync x hx')
      simp [State.fetch, this]
    · rcases h.sync x hx' with hs | hs
      · left; simp [State.fetch, update_of_ne hxb, hs]
      · right; simp [State.fetch, update_of_ne hxb, hs]
  pins := h.pins
  live := fun hp => by
    have hl := h.live hp
    exact { hl with reads := fun x hx => (State.bread_fetch b x).trans (hl.reads x hx) }
  down := fun hp => { h.down hp with }
  phase := h.phase

theorem Inv.evict (h : Inv c base s) (b : ℕ) (hb : s.pins b = 0) :
    Inv c base { s with cache := update s.cache b none } where
  size := h.size
  recov := h.recov
  sync := by
    intro x hx
    by_cases hxb : x = b
    · subst hxb; left; simp
    · simpa [update_of_ne hxb] using h.sync x hx
  pins := h.pins
  live := fun hp => by
    have hl := h.live hp
    have hnp : b ∉ pending s := by
      intro hm
      have := h.pins b
      rw [if_pos hm] at this
      omega
    refine { hl with reads := fun x hx => ?_ }
    rw [show view base { s with cache := update s.cache b none } x = view base s x from rfl,
      ← hl.reads x hx]
    by_cases hxb : x = b
    · subst hxb
      rw [State.bread_of_sync (h.sync x hnp)]
      simp [State.bread]
    · simp [State.bread, update_of_ne hxb]
  down := fun hp => { h.down hp with }
  phase := h.phase

/-! ## Operations -/

theorem Inv.running_of_mem (h : Inv c base s) (hi : i ∈ s.active) : s.pc = .running := by
  have hne : s.active ≠ [] := List.ne_nil_of_mem hi
  have hrec : s.pc.recovering = false := by
    cases hr : s.pc.recovering with
    | false => rfl
    | true => exact absurd (h.down hr).active hne
  have hq : s.log.committing = false := by
    cases hc : s.log.committing with
    | false => rfl
    | true => exact absurd ((h.live hrec).quiet hc).1 hne
  have hp := h.phase
  unfold Phase at hp
  cases hpc : s.pc <;> simp_all [Pc.recovering]

theorem Inv.beginOp (h : Inv c base s) (hs : CrashLog.beginOp s = some s') : Inv c base s' := by
  obtain ⟨hrec, hc, rfl⟩ := beginOp_eq_some hs
  have hlive := h.live hrec
  have hpc : s.pc = .running := by
    have hp := h.phase
    unfold Phase at hp
    cases hpc : s.pc <;> simp_all [Pc.recovering]
  exact {
    size := h.size
    recov := h.recov
    sync := h.sync
    pins := h.pins
    live := fun _ => { hlive with
      outstanding := by simp [hlive.outstanding]
      quiet := fun hc' => by simp [hc] at hc' }
    down := fun hr => by simp [hrec] at hr
    phase := h.phase }

theorem applyWrites_snoc (ws : List Write) (w : Write) (d : ℕ → Block) :
    applyWrites (ws ++ [w]) d = update (applyWrites ws d) w.block w.data := by
  rw [applyWrites_append]
  rfl

theorem Inv.logWrite {data : Block} (h : Inv c base s)
    (hs : CrashLog.logWrite c s i b data = some s') : Inv c base s' := by
  unfold CrashLog.logWrite at hs
  split at hs
  case isFalse => cases hs
  next hcond =>
  obtain ⟨hi, hhome, hword⟩ := hcond
  have hpc := h.running_of_mem hi
  obtain ⟨hlive, hpend, hncom, hclean, hall, hret⟩ := h.running hpc
  split at hs
  · cases hs
  next l new hw =>
  cases hs
  obtain ⟨hlog, hsize, hout, -⟩ := Log.logWrite_eq_ok hw
  rw [h.size] at hsize
  have hmem := Log.logWrite_mem hw
  have hnew := Log.logWrite_new hw
  obtain ⟨hsz, hop, hcm, hlen⟩ := Log.logWrite_frame hw
  -- the writes of the open group, as the operations see them
  have hview : ∀ x, view base { s with cur := s.cur ++ [⟨i, b, data⟩] } x =
      if x = b then data else view base s x := by
    intro x
    unfold view
    rw [applyWrites_snoc, update_apply]
  exact {
    size := hsz.trans h.size
    recov := h.recov
    sync := by
      intro x hx
      have hx' : x ∉ l.lh := by simpa [pending, hpc, State.modify, State.fetch] using hx
      rw [hmem] at hx'
      have hxb : x ≠ b := fun e => hx' (.inl e)
      have hxl : x ∉ pending s := by rw [hpend]; exact fun e => hx' (.inr e)
      simpa [State.modify, State.fetch, update_of_ne hxb] using h.sync x hxl
    pins := by
      intro x
      have hp := h.pins x
      rw [hpend] at hp
      have hx' : (if x ∈ l.lh then 1 else 0) = if x = b ∨ x ∈ s.log.lh then 1 else 0 := by
        simp only [hmem]
      simp only [pending, State.modify, State.fetch, hpc, hx']
      by_cases hb : b ∈ s.log.lh
      · have hfalse : new = false := by simpa [hb] using hnew
        by_cases hxb : x = b
        · subst hxb; simp_all
        · simp [hfalse, hxb, hp]
      · have htrue : new = true := hnew.mpr hb
        by_cases hxb : x = b
        · subst hxb; simp_all [bpin]
        · simp [htrue, bpin, hxb, hp]
    live := fun _ => {
      reads := by
        intro x hx
        refine Eq.trans ?_ (hview x).symm
        by_cases hxb : x = b
        · subst hxb; simp [State.bread, State.modify]
        · have := hlive.reads x hx
          simpa [State.bread, State.modify, State.fetch, update_of_ne hxb, hxb] using this
      nodup := Log.logWrite_nodup hw hlive.nodup
      home := fun x hx => ((hmem x).mp hx).elim (fun e => e ▸ hhome) (hlive.home x)
      word := fun x hx => ((hmem x).mp hx).elim (fun e => e ▸ hword) (hlive.word x)
      le_logsize := by
        change l.lh.length ≤ LOGSIZE
        omega
      lt_size := by
        change l.lh.length < c.size
        omega
      listed := by
        intro w hw
        have hdrop : s.groups.drop s.ncommitted = [] := by rw [hall, List.drop_length]
        change w ∈ (s.groups.drop s.ncommitted).flatten ++ (s.cur ++ [⟨i, b, data⟩]) at hw
        change w.block ∈ l.lh
        rw [hmem]
        rw [hdrop, List.flatten_nil, List.nil_append, List.mem_append, List.mem_singleton] at hw
        rcases hw with hw | rfl
        · right
          exact hlive.listed w (List.mem_append_right _ hw)
        · left; rfl
      outstanding := hop.trans hlive.outstanding
      quiet := fun hc' => by
        have hc'' : l.committing = true := hc'
        simp [hcm, hncom] at hc'' }
    down := fun hr => by
      have hr' : s.pc.recovering = true := hr
      rw [hpc] at hr'
      cases hr'
    phase := by
      unfold Phase
      simp only [State.modify, State.fetch, hpc]
      exact ⟨hcm.trans hncom, hclean, hall, hret⟩ }

theorem durable_of_all (h : s.ncommitted = s.groups.length) :
    durable base s = applyGroups s.groups base := by
  unfold durable
  rw [h, List.take_length]

theorem Inv.endOp_more (h : Inv c base s) (hi : i ∈ s.active)
    (hl : l = { s.log with outstanding := s.log.outstanding - 1 }) :
    Inv c base { s with log := l, active := s.active.erase i } := by
  subst hl
  have hpc := h.running_of_mem hi
  obtain ⟨hlive, -, hphase⟩ := h.running hpc
  have hlen := List.length_erase_of_mem hi
  have hout := hlive.outstanding
  exact {
    size := h.size
    recov := h.recov
    sync := h.sync
    pins := h.pins
    live := fun _ => { hlive with
      outstanding := by simp only [hlen]; omega
      quiet := fun hc => by simp [hphase.1] at hc }
    down := fun hr => by simp [hpc, Pc.recovering] at hr
    phase := by
      unfold Phase
      simp only [hpc]
      exact hphase }

section
variable (h : Inv c base s) (hi : i ∈ s.active) (hz : s.log.outstanding - 1 = 0)
  (hl : l = { s.log with outstanding := 0, committing := true })
include h hi hz hl

theorem Inv.endOp_commit : Inv c base { s with
      log := l
      active := s.active.erase i
      groups := s.groups ++ [s.cur]
      cur := []
      pc := .writeLog 0 } := by
  subst hl
  obtain ⟨hlive, hpend, -, hclean, hall, hret⟩ := h.running (h.running_of_mem hi)
  have hnil : s.active.erase i = [] := by
    apply List.eq_nil_of_length_eq_zero
    rw [List.length_erase_of_mem hi, ← hlive.outstanding]
    exact hz
  have htake : (s.groups ++ [s.cur]).take s.ncommitted = s.groups.take s.ncommitted :=
    List.take_append_of_le_length (by omega)
  have hdrop : (s.groups ++ [s.cur]).drop s.ncommitted = [s.cur] := by
    rw [hall, List.drop_left]
  exact {
    size := h.size
    recov := by
      unfold durable
      simp only [htake]
      exact h.recov
    sync := h.sync_of hpend
    pins := h.pins_of hpend
    live := fun _ => { hlive with
      reads := fun b hb => by
        unfold view
        rw [applyGroups_append_singleton]
        exact hlive.reads b hb
      listed := fun w hw => by
        simp only [hdrop, List.flatten_cons, List.flatten_nil, List.append_nil] at hw
        exact hlive.listed w (List.mem_append_right _ hw)
      outstanding := by simp [hnil]
      quiet := fun _ => ⟨hnil, rfl⟩ }
    down := fun hr => by simp [Pc.recovering] at hr
    phase := by
      refine ⟨rfl, hclean, by simp [hall], hret, ?_⟩
      intro t ht
      omega }

theorem Inv.endOp_empty (hlh : s.log.lh = []) : Inv c base { s with
      log := l
      active := s.active.erase i
      groups := s.groups ++ [s.cur]
      cur := []
      pc := .committed
      ncommitted := s.ncommitted + 1
      nreturned := s.nreturned + 1 } := by
  obtain ⟨hlive, hpend, -, hclean, hall, hret⟩ := h.running (h.running_of_mem hi)
  rw [hlh] at hpend
  have hcur : s.cur = [] := by
    rw [List.eq_nil_iff_forall_not_mem]
    intro w hw
    have := hlive.listed w (List.mem_append_right _ hw)
    rw [hlh] at this
    cases this
  have hc := h.endOp_commit hi hz hl
  have hlive' := hc.live rfl
  have hdur : durable base s = applyGroups (s.groups ++ [s.cur]) base := by
    rw [durable_of_all hall, hcur, applyGroups_append_singleton]
    rfl
  have htake : (s.groups ++ [s.cur]).take (s.ncommitted + 1) = s.groups ++ [s.cur] :=
    List.take_of_length_le (by simp [hall])
  subst hl
  exact {
    size := h.size
    recov := by
      unfold durable
      simp only [htake]
      rw [← hdur]
      exact h.recov
    sync := h.sync_of hpend
    pins := h.pins_of hpend
    live := fun _ => { hlive' with
      reads := hlive'.reads
      listed := fun w hw => by
        simp [hall] at hw }
    down := fun hr => by simp [Pc.recovering] at hr
    phase := ⟨rfl, hclean, by simp [hall], by simp [hret], hlh⟩ }

end

theorem Inv.endOp (h : Inv c base s) (hs : CrashLog.endOp s i = some s') : Inv c base s' := by
  unfold CrashLog.endOp at hs
  split at hs
  case isFalse => cases hs
  next hi =>
  split at hs
  · cases hs
  · next l hl =>
    cases hs
    obtain ⟨-, ⟨-, hc, -⟩ | ⟨-, -, hl⟩⟩ := Log.endOp_eq_ok hl
    · cases hc
    · exact h.endOp_more hi hl
  · next l hl =>
    obtain ⟨-, ⟨hz, -, hl⟩ | ⟨-, hc, -⟩⟩ := Log.endOp_eq_ok hl
    · have hlh : l.lh = s.log.lh := by rw [hl]
      simp only [hlh] at hs
      split at hs
      · cases hs
        exact h.endOp_commit hi hz hl
      · next hn =>
        cases hs
        exact h.endOp_empty hi hz hl (List.eq_nil_of_length_eq_zero (by omega))
    · cases hc

end Xv6.CrashLog
