import Xv6.Bio.Coherent

/-! # When the buffer cache is exhausted

A buffer is in use if a process holds its lock or is inside `bread` or `brelse` for it, or if it
holds a block of the log that is still pinned. `bget` has no buffer to give exactly when all `NBUF`
are in use, and nothing keeps the clients of the cache below that: `begin_op` admits operations that
pin all but one buffer, and the readers outside operations are not counted by anyone.
-/

namespace Xv6.Bio
set_option autoImplicit false

theorem Cache.Ok.bget_fails_iff {c : Cache} {l : List BufId} {owed : BufId → ℕ} (h : c.Ok l owed)
    (dev blockno : ℕ) : c.bget dev blockno = .fail (.panic "bget: no buffers") ↔
      (∀ b, ¬ c.Holds b dev blockno) ∧ ∀ b, owed b ≠ 0 := by
  have hfree : ∀ b, (c.buf b).refcnt = 0 ↔ owed b = 0 := by
    intro b
    rw [h.refcnt b]
    exact Int.natCast_eq_zero
  unfold Cache.bget
  rw [h.circular.scan_next _ h.length, h.circular.scan_prev _ h.length]
  cases hhit : l.find? fun b => (c.buf b).dev = dev ∧ (c.buf b).blockno = blockno with
  | some a =>
    have ha : c.Holds a dev blockno := by simpa [Cache.Holds] using List.find?_some hhit
    refine ⟨fun h => (by cases h), ?_⟩
    rintro ⟨habsent, -⟩
    exact absurd ha (habsent a)
  | none =>
    have habsent : ∀ b, ¬ c.Holds b dev blockno := by
      intro b hb
      have := List.find?_eq_none.mp hhit b (h.complete b)
      simp [hb.1, hb.2] at this
    cases hmiss : l.reverse.find? fun b => (c.buf b).refcnt = 0 with
    | some a =>
      have ha : (c.buf a).refcnt = 0 := by simpa using List.find?_some hmiss
      refine ⟨fun h => (by cases h), ?_⟩
      rintro ⟨-, hused⟩
      exact absurd ((hfree a).mp ha) (hused a)
    | none =>
      refine ⟨fun _ => ⟨habsent, ?_⟩, fun _ => rfl⟩
      intro b hb
      have := List.find?_eq_none.mp hmiss b (List.mem_reverse.mpr (h.complete b))
      simp [(hfree b).mpr hb] at this

namespace Journal

section
variable (c : Layout) (s : State)

def State.InUse (b : BufId) : Prop :=
  s.lock b ≠ none ∨ (∃ p, s.ref p = some b) ∨
    (s.cache.buf b).dev = c.dev ∧ (s.cache.buf b).blockno ∈ s.pinned

instance : DecidablePred (s.InUse c) := fun _ => inferInstanceAs (Decidable (_ ∨ _ ∨ _ ∧ _))

def State.inUse : ℕ := (Finset.univ.filter (s.InUse c)).card

end

variable {c : Layout} {s : State} {p : Proc}

theorem Inv.owed_pos_iff (h : Inv c s) (b : BufId) : s.owed b ≠ 0 ↔ s.InUse c b := by
  have hcount : countOf s.ref b = 0 ↔ ∀ p, s.ref p ≠ some b := countOf_eq_zero
  have hpins := h.pins b
  rw [pinsOf] at hpins
  rw [State.owed, Bio.owed, State.InUse]
  constructor
  · intro howed
    by_contra hnot
    push Not at hnot
    obtain ⟨hlock, href, hlist⟩ := hnot
    rw [if_neg fun hb => hlist hb.1 hb.2] at hpins
    rw [hcount.mpr href, if_pos hlock, hpins] at howed
    exact howed rfl
  · rintro (hlock | ⟨p, hp⟩ | hlist)
    · rw [if_neg hlock]
      omega
    · have := countOf_pos hp
      omega
    · rw [if_pos hlist] at hpins
      omega

/-- In every run of the cache and the log, `bget` does not panic if and only if the block it looks
for is cached or fewer than `NBUF` buffers are in use. -/
theorem bget_not_exhausted_iff (hs : ((sys c).restrict (Proper c)).Reachable s) {m : ℕ}
    {ret : Bread}
    (hpc : s.pc p = .bget m ret) :
    step c s (.go p) ≠ .fail (.panic "bget: no buffers") ↔
      (∃ b, s.cache.Holds b c.dev m) ∨ s.inUse c < NBUF := by
  have h := inv_of_reachable hs
  obtain ⟨l, hok⟩ := h.ok
  have hstep : step c s (.go p) = .fail (.panic "bget: no buffers") ↔
      s.cache.bget c.dev m = .fail (.panic "bget: no buffers") := by
    simp only [step, hpc, pcStep]
    cases s.cache.bget c.dev m with
    | ok r | blocked => exact ⟨fun h => (by cases h), fun h => by cases h⟩
    | fail e =>
      constructor <;>
      · intro he
        cases he
        rfl
  have hall : (∀ b, s.owed b ≠ 0) ↔ s.inUse c = NBUF := by
    have hcard := Finset.card_eq_iff_eq_univ (Finset.univ.filter (s.InUse c))
    rw [Fintype.card_fin] at hcard
    rw [State.inUse, hcard, Finset.filter_eq_self]
    simp only [h.owed_pos_iff, Finset.mem_univ, true_imp_iff]
  have hle : s.inUse c ≤ NBUF := by
    have := Finset.card_le_univ (Finset.univ.filter (s.InUse c))
    rwa [Fintype.card_fin] at this
  rw [Ne, hstep, hok.bget_fails_iff, hall, not_and_or, not_forall_not]
  exact or_congr_right ⟨fun hne => lt_of_le_of_ne hle hne, ne_of_lt⟩

def proc (n : ℕ) : Proc := ⟨n % NPROC, Nat.mod_lt n (by decide)⟩

/-- One operation after the other logs the blocks from 40 on, `MAXOPBLOCKS` each. -/
def logBlock (b : BufId) : List Event :=
  let p := proc (b / MAXOPBLOCKS)
  [.bread p (40 + b), .go p, .go p, .go p, .modify p b fun _ => 7, .logWrite p b, .brelse p b,
    .go p, .go p]

/-- Three operations log 29 blocks, which is all `log_write` lets them; then two processes read one
block each, the first up to its wait for the disk. -/
def fullLog : List Event :=
  [.beginOp (proc 0), .beginOp (proc 1), .beginOp (proc 2)] ++
    ((List.finRange NBUF).take 29).flatMap logBlock ++
    [.bread (proc 3) 100, .go (proc 3), .bread (proc 4) 101]

/-- The first of the two readers finds the last buffer. -/
theorem bget_not_exhausted_iff_fullLog : ∃ s,
    ((sys layout).restrict (Proper layout)).Reachable s ∧ s.inUse layout = 29 ∧
    (∀ b, ¬ s.cache.Holds b layout.dev 100) ∧
    step layout s (.go (proc 3)) ≠ .fail (.panic "bget: no buffers") := by
  have hrun : (run (fullLog.take (fullLog.length - 2))).any (fun s =>
      s.pc (proc 3) = .bget 100 .user ∧ s.inUse layout = 29 ∧
        ∀ b, ¬ ((s.cache.buf b).dev = layout.dev ∧ (s.cache.buf b).blockno = 100)) = true := by
    decide +kernel
  obtain ⟨s, hs, h⟩ := (Option.any_eq_true _ _).1 hrun
  obtain ⟨hpc, huse, hmiss⟩ := of_decide_eq_true h
  have hreach := reachable_of_run hs
  have hroom : s.inUse layout < NBUF := by
    rw [huse]
    decide
  exact ⟨s, hreach, huse, hmiss, (bget_not_exhausted_iff hreach hpc).2 (.inr hroom)⟩

theorem second_reader_panics : ∃ s, ((sys layout).restrict (Proper layout)).Reachable s ∧
    s.log.outstanding = 3 ∧ s.log.lh.length ≤ 3 * MAXOPBLOCKS ∧
    s.inOp (proc 3) = false ∧ s.inOp (proc 4) = false ∧
    step layout s (.go (proc 4)) = .fail (.panic "bget: no buffers") := by
  have hrun : (run fullLog).map (fun s => (s.log.outstanding, s.log.lh.length, s.inOp (proc 3),
      s.inOp (proc 4), match step layout s (.go (proc 4)) with
        | .fail e => some e
        | _ => none)) = some (3, 29, false, false, some (.panic "bget: no buffers")) := by
    decide +kernel
  obtain ⟨s, hs, h⟩ := Option.map_eq_some_iff.mp hrun
  simp only [Prod.mk.injEq] at h
  obtain ⟨hout, hlen, h3, h4, hstep⟩ := h
  refine ⟨s, reachable_of_run hs, hout, by rw [hlen]; decide, h3, h4, ?_⟩
  split at hstep
  · next e he => rw [he, Option.some.inj hstep]
  · cases hstep

end Journal
end Xv6.Bio
