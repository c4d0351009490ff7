import Xv6.Bio.Cache
import Xv6.Lib.TransSys

/-! # The list of buffers

Any processes call `bread`, `brelse`, `bpin` and `bunpin`. A call of `bread` or `brelse` is two
steps, the one on the cache under `bcache.lock` and the one on the sleep lock of the buffer, and
other calls may come in between. As ghost data the state counts the pins and keeps the time at which
each buffer last became unused.
-/

namespace Xv6.Bio.Lru
set_option autoImplicit false
open Function (update update_self update_of_ne comp_update)

/-! ## The machine -/

inductive Pc where
  | idle
  | waiting (b : BufId)
  | releasing (b : BufId)
  deriving DecidableEq

def Pc.ref : Pc → Option BufId
  | idle => none
  | waiting b | releasing b => some b

structure State where
  cache : Cache
  disk : ℕ → ℕ → Block
  lock : BufId → Option Proc
  pc : Proc → Pc
  /-- Ghost: the calls of `bpin` without a `bunpin` yet. -/
  pins : BufId → ℕ
  /-- Ghost: when `brelse` last dropped the last reference, counted in such calls. -/
  released : BufId → Option ℕ
  clock : ℕ

inductive Event where
  | bread (p : Proc) (dev blockno : ℕ)
  | locked (p : Proc)
  | brelse (p : Proc) (b : BufId)
  | dropped (p : Proc)
  | bpin (p : Proc) (b : BufId)
  | bunpin (p : Proc) (b : BufId)

namespace State
variable (s : State) (p : Proc)

def go (pc : Pc) : State := { s with pc := update s.pc p pc }

def drop (b : BufId) : State :=
  let c := s.cache.brelse b
  { s with
    cache := c
    released := if (c.buf b).refcnt = 0 then update s.released b (some s.clock)
      else s.released
    clock := if (c.buf b).refcnt = 0 then s.clock + 1 else s.clock }

end State

def step (s : State) : Event → Outcome Failure State
  | .bread p dev blockno =>
    if s.pc p = .idle then do
      let (b, c) ← s.cache.bget dev blockno
      return { s with cache := c }.go p (.waiting b)
    else .blocked
  | .locked p =>
    match s.pc p with
    | .waiting b =>
      if s.lock b = none then
        .ok ({ s with
          lock := update s.lock b (some p)
          cache := s.cache.fill s.disk b }.go p .idle)
      else .blocked
    | _ => .blocked
  | .brelse p b =>
    if s.pc p = .idle then
      if s.lock b = some p then
        .ok ({ s with lock := update s.lock b none }.go p (.releasing b))
      else .fail (.panic "brelse")
    else .blocked
  | .dropped p =>
    match s.pc p with
    | .releasing b => .ok ((s.drop b).go p .idle)
    | _ => .blocked
  | .bpin p b =>
    if s.pc p = .idle then
      .ok { s with cache := s.cache.bpin b, pins := update s.pins b (s.pins b + 1) }
    else .blocked
  | .bunpin p b =>
    if s.pc p = .idle then
      .ok { s with cache := s.cache.bunpin b, pins := update s.pins b (s.pins b - 1) }
    else .blocked

def boot (k : Links BufId) (zero : Block) (disk : ℕ → ℕ → Block) : State where
  cache := .binit k zero
  disk := disk
  lock := fun _ => none
  pc := fun _ => .idle
  pins := fun _ => 0
  released := fun _ => none
  clock := 0

def sys : TransSys State Event where
  init := fun s => ∃ k zero disk, s = boot k zero disk
  step := fun s e s' => step s e = .ok s'

/-- The device is not 0, and `bunpin` matches a `bpin` and is called by the holder of the buffer.
That `brelse` matches a `bread` is checked by the code. -/
def Matched (s : State) : Event → Prop
  | .bread _ dev _ => dev ≠ 0
  | .bunpin p b => s.lock b = some p ∧ 0 < s.pins b
  | .locked _ | .brelse .. | .dropped _ | .bpin .. => True

/-! ## The invariant -/

def State.ref (s : State) : Proc → Option BufId := fun p => (s.pc p).ref

def State.owed (s : State) : BufId → ℕ := Bio.owed s.ref s.lock s.pins

def Older (released : BufId → Option ℕ) (b a : BufId) : Prop :=
  ∀ t, released b = some t → ∃ u, released a = some u ∧ t < u

structure Inv (s : State) (l : List BufId) : Prop where
  ok : s.cache.Ok l s.owed
  order : l.Pairwise fun a b => s.owed a = 0 → s.owed b = 0 → Older s.released b a
  clock : ∀ b t, s.released b = some t → t < s.clock
  fresh : ∀ b, s.owed b = 0 → s.released b = none → (s.cache.buf b).dev = 0

theorem inv_boot (k : Links BufId) (zero : Block) (disk : ℕ → ℕ → Block) :
    Inv (boot k zero disk) (List.finRange NBUF).reverse := by
  have howed : (boot k zero disk).owed = fun _ => 0 := by
    funext b
    have hzero : countOf (boot k zero disk).ref b = 0 := by
      rw [countOf_eq_zero]
      intro p h
      cases h
    rw [State.owed, Bio.owed, hzero]
    rfl
  refine ⟨?_, ?_, ?_, ?_⟩
  · rw [howed]
    exact Cache.ok_binit k zero
  · refine List.Pairwise.imp ?_ (List.nodup_reverse.mpr (List.nodup_finRange NBUF))
    intro a b _ _ _ t ht
    cases ht
  · intro b t ht
    cases ht
  · intro b _ _
    rfl

/-! ## The steps -/

theorem State.ref_go (s : State) (p : Proc) (pc : Pc) :
    (s.go p pc).ref = update s.ref p pc.ref :=
  comp_update Pc.ref s.pc p pc

namespace Inv
variable {s s' : State} {l : List BufId} {p : Proc} {b : BufId}

theorem keep (h : Inv s l) (hok : s'.cache.Ok l s'.owed)
    (howed : ∀ a, s'.owed a = 0 → s.owed a = 0)
    (hdev : ∀ a, s'.owed a = 0 → (s'.cache.buf a).dev = (s.cache.buf a).dev)
    (hreleased : s'.released = s.released) (hclock : s'.clock = s.clock) : Inv s' l := by
  refine ⟨hok, ?_, ?_, ?_⟩
  · rw [hreleased]
    refine h.order.imp ?_
    intro a a' hold ha ha'
    exact hold (howed a ha) (howed a' ha')
  · rw [hreleased, hclock]
    exact h.clock
  · intro a ha hr
    rw [hreleased] at hr
    rw [hdev a ha]
    exact h.fresh a (howed a ha) hr

theorem zero_of_update {owed : BufId → ℕ} {n : ℕ} (hn : n ≠ 0 ∨ owed b = 0) {a : BufId}
    (ha : update owed b n a = 0) : owed a = 0 := by
  by_cases hab : a = b
  · rw [hab, update_self] at ha
    rw [hab]
    exact hn.resolve_left (not_not.mpr ha)
  · rwa [update_of_ne hab] at ha

theorem bread {dev blockno : ℕ} {c : Cache} (h : Inv s l) (hp : s.pc p = .idle)
    (hget : s.cache.bget dev blockno = .ok (b, c)) :
    Inv ({ s with cache := c }.go p (.waiting b)) l := by
  have howed : ({ s with cache := c }.go p (.waiting b)).owed =
      update s.owed b (s.owed b + 1) := by
    rw [State.owed, State.ref_go]
    exact owed_get s.pins s.lock (by rw [State.ref, hp]; rfl)
  have hne : ∀ a, ({ s with cache := c }.go p (.waiting b)).owed a = 0 → a ≠ b := by
    rintro a ha rfl
    rw [howed, update_self] at ha
    omega
  refine h.keep ?_ ?_ ?_ rfl rfl
  · rw [howed]
    exact (h.ok.bget hget).1
  · intro a ha
    rw [howed] at ha
    exact zero_of_update (.inl (Nat.succ_ne_zero _)) ha
  · intro a ha
    exact (h.ok.bget_frame hget (.inl (hne a ha))).dev

theorem locked (h : Inv s l) (hp : s.pc p = .waiting b) (hfree : s.lock b = none) :
    Inv ({ s with
      lock := update s.lock b (some p)
      cache := s.cache.fill s.disk b }.go p .idle) l := by
  have howed : ({ s with
      lock := update s.lock b (some p)
      cache := s.cache.fill s.disk b }.go p .idle).owed = s.owed := by
    rw [State.owed, State.ref_go]
    exact owed_lock s.pins (by rw [State.ref, hp]; rfl) hfree
  refine h.keep ?_ ?_ ?_ rfl rfl
  · rw [howed]
    exact h.ok.fill s.disk b
  · intro a ha
    rwa [howed] at ha
  · intro a _
    exact (Cache.fill_buf s.cache s.disk b a).1

theorem brelse (h : Inv s l) (hp : s.pc p = .idle) (hheld : s.lock b = some p) :
    Inv ({ s with lock := update s.lock b none }.go p (.releasing b)) l := by
  have howed : ({ s with lock := update s.lock b none }.go p (.releasing b)).owed =
      s.owed := by
    rw [State.owed, State.ref_go]
    exact owed_unlock s.pins (by rw [State.ref, hp]; rfl) hheld
  refine h.keep ?_ ?_ (fun _ _ => rfl) rfl rfl
  · rw [howed]
    exact h.ok
  · intro a ha
    rwa [howed] at ha

theorem bpin (h : Inv s l) (b : BufId) :
    Inv { s with cache := s.cache.bpin b, pins := update s.pins b (s.pins b + 1) } l := by
  have howed : State.owed
      { s with cache := s.cache.bpin b, pins := update s.pins b (s.pins b + 1) } =
      update s.owed b (s.owed b + 1) := by
    apply owed_pins
    show s.owed b + (s.pins b + 1) = s.owed b + 1 + s.pins b
    omega
  refine h.keep ?_ ?_ (fun a _ => (s.cache.bpin_same b a).dev) rfl rfl
  · rw [howed]
    exact h.ok.bpin b
  · intro a ha
    rw [howed] at ha
    exact zero_of_update (.inl (Nat.succ_ne_zero _)) ha

theorem bunpin (h : Inv s l) (hheld : s.lock b = some p) (hpins : 0 < s.pins b) :
    Inv { s with cache := s.cache.bunpin b, pins := update s.pins b (s.pins b - 1) } l := by
  have howed : State.owed
      { s with cache := s.cache.bunpin b, pins := update s.pins b (s.pins b - 1) } =
      update s.owed b (s.owed b - 1) := by
    have hle : s.pins b ≤ s.owed b := Nat.le_add_left _ _
    apply owed_pins
    show s.owed b + (s.pins b - 1) = s.owed b - 1 + s.pins b
    omega
  have htwo : 1 < s.owed b := by
    rw [State.owed, Bio.owed, hheld, if_neg (by simp)]
    omega
  refine h.keep ?_ ?_ (fun a _ => (s.cache.bunpin_same b a).dev) rfl rfl
  · rw [howed]
    exact h.ok.bunpin (by omega)
  · intro a ha
    rw [howed] at ha
    exact zero_of_update (.inl (by omega)) ha

theorem dropped (h : Inv s l) (hp : s.pc p = .releasing b) :
    ∃ l', Inv ((s.drop b).go p .idle) l' := by
  have href : s.ref p = some b := by rw [State.ref, hp]; rfl
  obtain ⟨hpos, hdrop⟩ := owed_drop s.pins s.lock href
  have howed : ((s.drop b).go p .idle).owed = update s.owed b (s.owed b - 1) := by
    rw [State.owed, State.ref_go]
    exact hdrop
  have hok := h.ok.brelse hpos
  rw [show Bio.owed s.ref s.lock s.pins = s.owed from rfl] at hpos
  have hdev : ∀ a, ((s.cache.brelse b).buf a).dev = (s.cache.buf a).dev := fun a =>
    (s.cache.brelse_same b a).dev
  have hzero : ((s.cache.brelse b).buf b).refcnt = 0 ↔ s.owed b = 1 := by
    rw [hok.refcnt b, update_self]
    omega
  by_cases hone : s.owed b = 1
  · rw [if_pos hone] at hok
    have hreleased : ((s.drop b).go p .idle).released =
        update s.released b (some s.clock) := if_pos (hzero.mpr hone)
    have hclock : ((s.drop b).go p .idle).clock = s.clock + 1 := if_pos (hzero.mpr hone)
    have hothers : ∀ a ∈ l.erase b, a ≠ b := by
      rintro a ha rfl
      exact List.Nodup.not_mem_erase h.ok.circular.2 ha
    refine ⟨b :: l.erase b, ?_, ?_, ?_, ?_⟩
    · rw [howed]
      exact hok
    · rw [hreleased, howed]
      refine List.pairwise_cons.mpr ⟨?_, ?_⟩
      · intro a ha _ _ t ht
        rw [update_of_ne (hothers a ha)] at ht
        exact ⟨s.clock, update_self _ _ _, h.clock a t ht⟩
      · refine (h.order.sublist List.erase_sublist).imp_of_mem ?_
        intro a a' ha ha' hold
        rw [update_of_ne (hothers a ha), update_of_ne (hothers a' ha')]
        intro h0 h0' t ht
        rw [update_of_ne (hothers a' ha')] at ht
        rw [update_of_ne (hothers a ha)]
        exact hold h0 h0' t ht
    · rw [hreleased, hclock]
      intro a t ht
      by_cases ha : a = b
      · rw [ha, update_self] at ht
        cases ht
        omega
      · rw [update_of_ne ha] at ht
        have := h.clock a t ht
        omega
    · rw [hreleased, howed]
      intro a h0 hr
      by_cases ha : a = b
      · rw [ha, update_self] at hr
        cases hr
      · rw [update_of_ne ha] at h0 hr
        exact (hdev a).trans (h.fresh a h0 hr)
  · rw [if_neg hone] at hok
    refine ⟨l, h.keep ?_ ?_ (fun a _ => hdev a) (if_neg (mt hzero.mp hone))
      (if_neg (mt hzero.mp hone))⟩
    · rw [howed]
      exact hok
    · intro a ha
      rw [howed] at ha
      exact zero_of_update (.inl (by omega)) ha

end Inv

/-! ## The list of buffers -/

/-- A step keeps the invariant, and a buffer with references keeps its block. -/
theorem step_keeps {s s' : State} {l : List BufId} {e : Event} (h : Inv s l)
    (hs : step s e = .ok s') : (Matched s e → ∃ l', Inv s' l') ∧
      ∀ b, 0 < s.owed b → (s'.cache.buf b).dev = (s.cache.buf b).dev ∧
        (s'.cache.buf b).blockno = (s.cache.buf b).blockno := by
  cases e with
  | bread p dev blockno =>
    simp only [step] at hs
    split_ifs at hs with hp
    obtain ⟨⟨b, c⟩, hget, hs⟩ := Outcome.bind_eq_ok hs
    cases hs
    refine ⟨fun _ => ⟨l, h.bread hp hget⟩, ?_⟩
    intro a ha
    have hsame := h.ok.bget_frame hget (.inr ha)
    exact ⟨hsame.dev, hsame.blockno⟩
  | locked p =>
    simp only [step] at hs
    split at hs
    · next b hp =>
      split_ifs at hs with hfree
      cases hs
      refine ⟨fun _ => ⟨l, h.locked hp hfree⟩, ?_⟩
      intro a _
      obtain ⟨hdev, hblockno, -⟩ := Cache.fill_buf s.cache s.disk b a
      exact ⟨hdev, hblockno⟩
    · cases hs
  | brelse p b =>
    simp only [step] at hs
    split_ifs at hs with hp hheld
    cases hs
    exact ⟨fun _ => ⟨l, h.brelse hp hheld⟩, fun _ _ => ⟨rfl, rfl⟩⟩
  | dropped p =>
    simp only [step] at hs
    split at hs
    · next b hp =>
      cases hs
      refine ⟨fun _ => h.dropped hp, ?_⟩
      intro a _
      exact ⟨(s.cache.brelse_same b a).dev, (s.cache.brelse_same b a).blockno⟩
    · cases hs
  | bpin p b =>
    simp only [step] at hs
    split_ifs at hs
    cases hs
    refine ⟨fun _ => ⟨l, h.bpin b⟩, ?_⟩
    intro a _
    exact ⟨(s.cache.bpin_same b a).dev, (s.cache.bpin_same b a).blockno⟩
  | bunpin p b =>
    simp only [step] at hs
    split_ifs at hs
    cases hs
    refine ⟨fun he => ⟨l, h.bunpin he.1 he.2⟩, ?_⟩
    intro a _
    exact ⟨(s.cache.bunpin_same b a).dev, (s.cache.bunpin_same b a).blockno⟩

theorem inv_of_reachable {s : State} (hs : (sys.restrict Matched).Reachable s) : ∃ l, Inv s l := by
  refine TransSys.Reachable.invariant (I := fun s => ∃ l, Inv s l) hs ?_ ?_
  · rintro s ⟨k, zero, disk, rfl⟩
    exact ⟨_, inv_boot k zero disk⟩
  · rintro s e s' ⟨l, h⟩ hstep
    exact (step_keeps h hstep.2).1 hstep.1

theorem pairwise_find?_reverse {α : Type*} {R : α → α → Prop} {q : α → Bool} {l : List α} {a : α}
    (h : l.Pairwise R) (hfind : l.reverse.find? q = some a) :
    ∀ a' ∈ l, q a' = true → a' ≠ a → R a' a := by
  obtain ⟨-, u, v, hrev, hu⟩ := List.find?_eq_some_iff_append.mp hfind
  have hl : l = v.reverse ++ a :: u.reverse := by
    rw [← l.reverse_reverse, hrev]
    simp
  intro a' ha' hq hne
  rw [hl] at h ha'
  rcases List.mem_append.mp ha' with hv | hmem
  · exact (List.pairwise_append.mp h).2.2 a' hv a List.mem_cons_self
  · rcases List.mem_cons.mp hmem with rfl | hmem
    · exact absurd rfl hne
    · have := hu a' (List.mem_reverse.mp hmem)
      rw [hq] at this
      cases this

/-- A miss recycles the unused buffer that was released longest ago, never used ones first. -/
theorem recycled {s s' : State} {l : List BufId} {p : Proc} {dev blockno : ℕ} (h : Inv s l)
    (hs : step s (.bread p dev blockno) = .ok s')
    (hmiss : ∀ b, ¬ s.cache.Holds b dev blockno) :
    ∃ b, s'.pc p = .waiting b ∧ (s.cache.buf b).refcnt = 0 ∧ s'.cache.Holds b dev blockno ∧
      ∀ b', (s.cache.buf b').refcnt = 0 → b' ≠ b → Older s.released b b' := by
  simp only [step] at hs
  split_ifs at hs
  obtain ⟨⟨b, c⟩, hget, hs⟩ := Outcome.bind_eq_ok hs
  cases hs
  rcases h.ok.bget_cases hget with hhit | hm
  · exact absurd hhit.holds (hmiss b)
  have hzero : (s.cache.buf b).refcnt = 0 := by simpa using List.find?_some hm.last
  refine ⟨b, update_self _ _ _, hzero, (h.ok.bget hget).2, ?_⟩
  intro b' hb' hne
  have howed : ∀ a, (s.cache.buf a).refcnt = 0 → s.owed a = 0 := by
    intro a ha
    rw [h.ok.refcnt a] at ha
    omega
  exact pairwise_find?_reverse h.order hm.last b' (h.ok.complete b') (by simpa using hb') hne
    (howed b' hb') (howed b hzero)

/-- The buffer list, in every run of calls that match. -/
theorem buffer_list {s : State} (hs : (sys.restrict Matched).Reachable s) :
    (∃ l, s.cache.links.Circular l ∧ ∀ b, b ∈ l) ∧
    (∀ b b', (s.cache.buf b).dev ≠ 0 → (s.cache.buf b').dev = (s.cache.buf b).dev →
      (s.cache.buf b').blockno = (s.cache.buf b).blockno → b' = b) ∧
    (∀ b, 0 ≤ (s.cache.buf b).refcnt) ∧
    (∀ e s', step s e = .ok s' → ∀ b, 0 < (s.cache.buf b).refcnt →
      (s'.cache.buf b).dev = (s.cache.buf b).dev ∧
        (s'.cache.buf b).blockno = (s.cache.buf b).blockno) ∧
    (∀ p dev blockno s', step s (.bread p dev blockno) = .ok s' →
      (∀ b, ¬ s.cache.Holds b dev blockno) →
      ∃ b, s'.pc p = .waiting b ∧ (s.cache.buf b).refcnt = 0 ∧ s'.cache.Holds b dev blockno ∧
        ∀ b', (s.cache.buf b').refcnt = 0 → b' ≠ b → Older s.released b b') ∧
    ∀ b, (s.cache.buf b).refcnt = 0 → s.released b = none → (s.cache.buf b).dev = 0 := by
  obtain ⟨l, h⟩ := inv_of_reachable hs
  refine ⟨⟨l, h.ok.circular, h.ok.complete⟩, h.ok.unique, ?_, ?_,
    fun p dev blockno s' => recycled h, ?_⟩
  · intro b
    rw [h.ok.refcnt b]
    exact Int.natCast_nonneg _
  · intro e s' hstep b hb
    rw [h.ok.refcnt b] at hb
    exact (step_keeps h hstep).2 b (by omega)
  · intro b hb
    rw [h.ok.refcnt b] at hb
    exact h.fresh b (by exact_mod_cast hb)

instance (s : State) : DecidablePred (Matched s)
  | .bread _ dev _ => inferInstanceAs (Decidable (dev ≠ 0))
  | .bunpin p b => inferInstanceAs (Decidable (s.lock b = some p ∧ 0 < s.pins b))
  | .locked _ | .brelse .. | .dropped _ | .bpin .. => isTrue trivial

def firstProc : Proc := ⟨0, NPROC_pos⟩

def firstBuf : BufId := ⟨0, NBUF_pos⟩

def readAndRelease : List Event :=
  [.bread firstProc 1 5, .locked firstProc, .brelse firstProc firstBuf, .dropped firstProc]

theorem buffer_list_readAndRelease : ∃ s : State, (sys.restrict Matched).Reachable s ∧
    (s.cache.buf firstBuf).blockno = 5 ∧ s.released firstBuf = some 0 ∧
    (s.cache.buf firstBuf).refcnt = 0 ∧ ∃ l, s.cache.links.Circular l ∧ ∀ b, b ∈ l := by
  have hrun : (TransSys.exec (fun s e => if Matched s e then (step s e).result else none)
      (boot ⟨id, id⟩ (fun _ => 0) fun _ _ _ => 0) readAndRelease).map (fun s =>
        ((s.cache.buf firstBuf).blockno, s.released firstBuf, (s.cache.buf firstBuf).refcnt)) =
      some (5, some 0, 0) := by decide +kernel
  obtain ⟨s, hs, h⟩ := Option.map_eq_some_iff.mp hrun
  simp only [Prod.mk.injEq] at h
  have hreach : (sys.restrict Matched).Reachable s :=
    .of_exec (fun _ _ _ => Outcome.result_eq_some.mp) ⟨_, _, _, rfl⟩ hs
  exact ⟨s, hreach, h.1, h.2.1, h.2.2, (buffer_list hreach).1⟩

end Xv6.Bio.Lru
