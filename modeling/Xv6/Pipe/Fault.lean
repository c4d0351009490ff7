import Xv6.Pipe.Fifo

/-! # Reading into a buffer that is not writable throughout

`piperead` takes each byte out of the pipe before it copies it to the reader. When the copy fails
the byte is gone.
-/

namespace Xv6.Pipe
set_option autoImplicit false
open Function (update update_self update_of_ne)
open TransSys (Run)

/-- Of the buffer that `p` reads into, the first `k` bytes are writable. -/
def Writable (p : Proc) (k : ℕ) (s : State) : Event → Prop
  | .go q ok => q = p → ∀ n i, s.pc p = .readLoop n i → ok = decide (i < k)
  | _ => True

/-- Who holds its own lock in `sleep` is not asleep yet. -/
def Dozing (s : State) : Prop := ∀ q, (s.pc q).dozing = true → s.chan q = none

section
variable {s : State} {p : Proc} {k : ℕ}

theorem Dozing.go {s' : State} {q : Proc} {pc : Pc} (h : Dozing s) (hpc : s'.pc = update s.pc q pc)
    (hpc' : pc.dozing = false) (hchan : ∀ r, r ≠ q → s.chan r = none → s'.chan r = none) :
    Dozing s' := by
  intro r hr
  rw [hpc] at hr
  have hne : r ≠ q := by
    rintro rfl
    rw [update_self, hpc'] at hr
    cases hr
  rw [update_of_ne hne] at hr
  exact hchan r hne (h r hr)

/-- From `s` to `t` neither the pipe and the history nor `p` has changed. -/
structure Still (p : Proc) (s t : State) : Prop where
  pipe : t.pipe = s.pipe
  trace : t.trace = s.trace
  chan : t.chan p = s.chan p
  dozing : Dozing t

theorem exists_asleep (hd : Dozing s) {q : Proc} (hq : (s.pc q).dozing = true) (hne : q ≠ p) :
    ∃ t, (sys.restrict (Writable p k)).step s (.go q false) t ∧ (t.pc q).dozing = false ∧
      t.pc p = s.pc p ∧ Still p s t := by
  obtain ⟨pc, chan, hs, hpc⟩ : ∃ pc chan,
      pcStep q false s (s.pc q) = some (s.sleep q chan pc) ∧ pc.dozing = false := by
    cases hpc : s.pc q with
    | sleepWrite w => exact ⟨.relockWrite w, .nwrite, rfl, rfl⟩
    | sleepRead n => exact ⟨.relockRead n, .nread, rfl, rfl⟩
    | _ => rw [hpc] at hq; cases hq
  refine ⟨s.sleep q chan pc, ⟨fun h => absurd h hne, ?_⟩, ?_, s.go_pc_of_ne q hne.symm pc,
    rfl, rfl, update_of_ne hne.symm _ _, ?_⟩
  · show (if s.chan q = none then pcStep q false s (s.pc q) else none) = _
    rw [if_pos (hd q hq), hs]
  · exact (congrArg Pc.dozing (s.go_pc_self q pc)).trans hpc
  · exact hd.go rfl hpc fun r hr h => (update_of_ne hr _ _).trans h

theorem wake_step {chan : Chan} {j : ℕ} {ret : WakeRet} (hj : j < NPROC) (hd : Dozing s)
    (hc : s.chan p = none) (hp : s.pc p = .wakeup chan j ret)
    (hq : (s.pc ⟨j, hj⟩).dozing = false) :
    ∃ t, (sys.restrict (Writable p k)).step s (.go p false) t ∧
      t.pc p = .wakeup chan (j + 1) ret ∧ Still p s t := by
  have hfree : Writable p k s (.go p false) := by
    intro _ n i h
    rw [hp] at h
    cases h
  have hstep : step s (.go p false) = wakeupStep p chan j ret s := by
    show (if s.chan p = none then pcStep p false s (s.pc p) else none) = _
    rw [if_pos hc, hp, pcStep]
  rw [wakeupStep, dif_pos hj] at hstep
  by_cases hself : (⟨j, hj⟩ : Proc) = p
  · rw [if_pos hself] at hstep
    exact ⟨_, ⟨hfree, hstep⟩, State.go_pc_self .., rfl, rfl, rfl, hd.go rfl rfl fun _ _ => id⟩
  · rw [if_neg hself, hq, if_neg Bool.false_ne_true] at hstep
    refine ⟨_, ⟨hfree, hstep⟩, State.go_pc_self .., rfl, rfl, update_of_ne (Ne.symm hself) _ _,
      hd.go rfl rfl fun r _ hr => ?_⟩
    by_cases hrq : r = ⟨j, hj⟩
    · subst hrq
      simp [State.go, State.wake, hr]
    · exact (update_of_ne hrq _ _).trans hr

theorem exists_return {i j m : ℕ} (hm : j + m = NPROC) (hd : Dozing s) (hc : s.chan p = none)
    (hp : s.pc p = .wakeup .nwrite j (.readDone i)) :
    ∃ es t, Run (sys.restrict (Writable p k)) s es t ∧ t.pipe = s.pipe ∧
      t.trace = s.trace.finish p .read i := by
  induction m generalizing s j with
  | zero =>
    obtain rfl : j = NPROC := hm
    refine ⟨[.go p false], s.ret p .read i, .cons ⟨?_, ?_⟩ (.nil _), rfl, rfl⟩
    · intro _ n i h
      rw [hp] at h
      cases h
    · show (if s.chan p = none then pcStep p false s (s.pc p) else none) = _
      rw [if_pos hc, hp, pcStep, wakeupStep, dif_neg (lt_irrefl _), wakeEnd]
  | succ m ih =>
    have hj : j < NPROC := by omega
    -- a process that is falling asleep comes first, and then `p` gets its lock
    obtain ⟨es, s', hrun, hq, hp', hs'⟩ : ∃ es s', Run (sys.restrict (Writable p k)) s es s' ∧
        (s'.pc ⟨j, hj⟩).dozing = false ∧ s'.pc p = s.pc p ∧ Still p s s' := by
      cases hq : (s.pc ⟨j, hj⟩).dozing with
      | false => exact ⟨[], s, .nil s, hq, rfl, rfl, rfl, rfl, hd⟩
      | true =>
        have hne : (⟨j, hj⟩ : Proc) ≠ p := by
          intro h
          rw [h, hp] at hq
          cases hq
        obtain ⟨s', hs', h⟩ := exists_asleep hd hq hne
        exact ⟨_, s', .cons hs' (.nil _), h⟩
    obtain ⟨t, hstep, hpt, ht⟩ := wake_step hj hs'.dozing (hs'.chan.trans hc) (hp'.trans hp) hq
    obtain ⟨fs, u, hrun', hpu, htu⟩ :=
      ih (by omega) ht.dozing (ht.chan.trans (hs'.chan.trans hc)) hpt
    refine ⟨_, u, hrun.append (.cons hstep hrun'), hpu.trans (ht.pipe.trans hs'.pipe), ?_⟩
    rw [htu, ht.trace, hs'.trace]

/-- The bytes that are taken out and not delivered, if `m` could be read in all. -/
def lost (n : ℤ) (k m : ℕ) : ℕ := if n ≤ k ∨ m ≤ k then 0 else 1

/-- From `s` to `u` the first `i` bytes of the pipe have been delivered and `m` have been taken
out. -/
structure Copied (s u : State) (i m : ℕ) : Prop where
  bytes : u.bytes .read = s.bytes .read ++ s.pipe.ring.contents.take i
  left : u.pipe.ring.contents = s.pipe.ring.contents.drop m
  le : m ≤ s.pipe.ring.used
  calls : u.trace.calls = s.trace.calls

theorem Copied.congr {u u' : State} {i m : ℕ} (h : Copied s u i m) (hpipe : u'.pipe = u.pipe)
    (hmoved : u'.trace.moved = u.trace.moved) (hcalls : u'.trace.calls = u.trace.calls) :
    Copied s u' i m := by
  refine ⟨?_, by rw [hpipe]; exact h.left, h.le, hcalls.trans h.calls⟩
  rw [← h.bytes, State.bytes, State.bytes, hmoved]

theorem Copied.used {u : State} {i m : ℕ} (h : Copied s u i m) :
    u.pipe.ring.used = s.pipe.ring.used - m := by
  rw [← RingBuf.length_contents, h.left, List.length_drop, RingBuf.length_contents]

section
variable {u : State} {n : ℤ} {i : ℕ}

theorem readLoopStep_frame (p : Proc) (n : ℤ) (i : ℕ) (ok : Bool) (u : State) :
    ∃ pc, (readLoopStep p n i ok u).pc = update u.pc p pc ∧ pc.dozing = false ∧
      (readLoopStep p n i ok u).lock = u.lock ∧ (readLoopStep p n i ok u).chan = u.chan ∧
      (readLoopStep p n i ok u).trace.returned = u.trace.returned := by
  unfold readLoopStep
  split_ifs <;> exact ⟨_, rfl, rfl, rfl, rfl, rfl⟩

/-- The second loop of `piperead` at byte `i`: one more is delivered, or the loop ends, and a byte
has been taken out in vain if the buffer has ended before. -/
theorem Copied.readLoopStep (hi : i ≤ k) (hc : Copied s u i i) :
    (i < k ∧ (readLoopStep p n i (decide (i < k)) u).pc p = .readLoop n (i + 1) ∧
      Copied s (readLoopStep p n i (decide (i < k)) u) (i + 1) (i + 1)) ∨
    ((readLoopStep p n i (decide (i < k)) u).pc p = .wakeup .nwrite 0 (.readDone i) ∧
      Copied s (readLoopStep p n i (decide (i < k)) u) i (i + lost n k s.pipe.ring.used)) := by
  have hused := hc.used
  have hle := hc.le
  rw [Pipe.readLoopStep]
  by_cases hmore : (i : ℤ) < n ∧ u.pipe.nread ≠ u.pipe.nwrite
  · rw [if_pos hmore]
    have hpos : 0 < u.pipe.ring.used :=
      Nat.pos_of_ne_zero fun h0 => hmore.2 (RingBuf.used_eq_zero.mp h0)
    obtain ⟨hcontents, -⟩ := RingBuf.contents_pop hpos
    have hleft := hc.left
    rw [hcontents] at hleft
    have hrest : u.pipe.ring.pop.contents = s.pipe.ring.contents.drop (i + 1) := by
      rw [← List.tail_drop, ← hleft, List.tail_cons]
    by_cases hk : i < k
    · rw [decide_eq_true hk, if_pos rfl]
      refine .inl ⟨hk, State.go_pc_self .., ?_, hrest, by omega, hc.calls⟩
      have hbyte : s.pipe.ring.contents[i]? = some u.head := by
        rw [← Nat.add_zero i, ← List.getElem?_drop, ← hleft]
        rfl
      have htake : s.pipe.ring.contents.take (i + 1) = s.pipe.ring.contents.take i ++ [u.head] := by
        rw [List.take_add_one, hbyte]
        rfl
      rw [htake, ← List.append_assoc, ← hc.bytes]
      show ((u.trace.move p .read u.head).moved .read).map Moved.byte = _
      rw [Trace.move_moved_self, List.map_append]
      rfl
    · have hlost : lost n k s.pipe.ring.used = 1 := if_neg (by omega)
      rw [decide_eq_false hk, if_neg Bool.false_ne_true, hlost]
      exact .inr ⟨State.go_pc_self .., hc.bytes, hrest, by omega, hc.calls⟩
  · have hlost : lost n k s.pipe.ring.used = 0 := by
      apply if_pos
      by_cases hn : (i : ℤ) < n
      · have := RingBuf.used_eq_zero.mpr (not_not.mp fun h => hmore ⟨hn, h⟩ : u.pipe.ring.first = _)
        omega
      · omega
    rw [if_neg hmore, hlost]
    exact .inr ⟨State.go_pc_self .., hc.congr rfl rfl rfl⟩

theorem exists_copied (hi : i ≤ k) (hd : Dozing u) (hchan : u.chan p = none)
    (hp : u.pc p = .readLoop n i) (hc : Copied s u i i) :
    ∃ es t j, Run (sys.restrict (Writable p k)) u es t ∧
      t.pc p = .wakeup .nwrite 0 (.readDone j) ∧ Dozing t ∧ t.chan p = none ∧
      Copied s t j (j + lost n k s.pipe.ring.used) ∧ t.trace.returned = u.trace.returned := by
  induction hm : k - i using Nat.strong_induction_on generalizing u i with
  | h m ih =>
    have hstep : (sys.restrict (Writable p k)).step u (.go p (decide (i < k)))
        (readLoopStep p n i (decide (i < k)) u) := by
      constructor
      · intro _ n' i' h
        rw [hp] at h
        obtain ⟨-, rfl⟩ := Pc.readLoop.inj h
        rfl
      · show (if u.chan p = none then pcStep p _ u (u.pc p) else none) = _
        rw [if_pos hchan, hp, pcStep]
    obtain ⟨pc, hpc, hdoze, -, hchan', hret⟩ := readLoopStep_frame p n i (decide (i < k)) u
    have hd' : Dozing (readLoopStep p n i (decide (i < k)) u) :=
      hd.go hpc hdoze fun r _ hr => by rw [hchan']; exact hr
    have hc' : (readLoopStep p n i (decide (i < k)) u).chan p = none := by
      rw [hchan']
      exact hchan
    rcases hc.readLoopStep (p := p) (n := n) hi with ⟨hk, hp', hnext⟩ | ⟨hp', hend⟩
    · obtain ⟨es, t, j, hrun, hpt, hdt, hct, hcopied, hret'⟩ :=
        ih (k - (i + 1)) (by omega) hk hd' hc' hp' hnext rfl
      exact ⟨_, t, j, .cons hstep hrun, hpt, hdt, hct, hcopied, hret'.trans hret⟩
    · exact ⟨_, _, i, .cons hstep (.nil _), hp', hd', hc', hend, hret⟩

end

/-! ## Every run of the call -/

/-- Nobody but `p` is at a place where `pi->lock` is held. -/
structure Alone (p : Proc) (s : State) : Prop where
  lock : s.lock = some p
  others : ∀ q, q ≠ p → (s.pc q).locked = false

theorem Alone.go {u u' : State} {q : Proc} {pc : Pc} (h : Alone p u) (hlock : u'.lock = u.lock)
    (hpc : u'.pc = update u.pc q pc) (hq : q = p ∨ pc.locked = false) : Alone p u' := by
  refine ⟨hlock.trans h.lock, ?_⟩
  intro r hr
  rw [hpc]
  by_cases hrq : r = q
  · subst hrq
    rw [update_self]
    exact hq.resolve_left hr
  · rw [update_of_ne hrq]
    exact h.others r hr

/-- The lock keeps the others away from the pipe. -/
theorem Alone.step_other {e : Event} {s' : State} (h : Alone p s) (hp : (s.pc p).isUser = false)
    (he : ∀ ok, e ≠ .go p ok) (hs : step s e = some s') :
    s'.pipe = s.pipe ∧ s'.trace = s.trace ∧ s'.pc p = s.pc p ∧ Alone p s' := by
  have hother : ∀ q, (s.pc q).isUser = true → p ≠ q := by
    rintro q hq rfl
    rw [hp] at hq
    cases hq
  cases e with
  | write q n src | read q n => simp [step, enter, acquire, h.lock] at hs
  | close q writable =>
    simp only [step] at hs
    split_ifs at hs with huser
    cases hs
    have hne := hother q huser.1
    have hdrop : ∀ b, (s.dropFd q b).pipe = s.pipe ∧ (s.dropFd q b).trace = s.trace ∧
        (s.dropFd q b).pc = s.pc ∧ (s.dropFd q b).lock = s.lock := by
      intro b
      cases b <;> exact ⟨rfl, rfl, rfl, rfl⟩
    obtain ⟨hpipe, htrace, hpc, hlock⟩ := hdrop writable
    unfold drop
    dsimp only
    split
    · refine ⟨hpipe, htrace, by rw [hpc], hlock.trans h.lock, ?_⟩
      rw [hpc]
      exact h.others
    · have hgo : ((s.dropFd q writable).go q (.closing writable)).pc =
          update s.pc q (.closing writable) := by rw [State.go, hpc]
      refine ⟨hpipe, htrace, ?_, h.go hlock hgo (.inr rfl)⟩
      rw [State.go_pc_of_ne _ _ hne, hpc]
  | fork a b | kill q =>
    simp only [step] at hs
    split_ifs at hs
    cases hs
    exact ⟨rfl, rfl, rfl, h.lock, h.others⟩
  | go q ok =>
    have hne : q ≠ p := by
      rintro rfl
      exact he ok rfl
    have hfree := h.others q hne
    have hasleep : ∀ chan pc, pc.locked = false → some (s.sleep q chan pc) = some s' →
        s'.pipe = s.pipe ∧ s'.trace = s.trace ∧ s'.pc p = s.pc p ∧ Alone p s' := by
      intro chan pc hpc heq
      cases heq
      exact ⟨rfl, rfl, s.go_pc_of_ne q hne.symm pc, h.go rfl rfl (.inr hpc)⟩
    simp only [step] at hs
    split_ifs at hs
    cases hpc : s.pc q with
    | sleepWrite w | sleepRead n =>
      rw [hpc] at hs
      exact hasleep _ _ rfl hs
    | relockWrite w | relockRead n => simp [hpc, pcStep, acquire, h.lock] at hs
    | closing writable =>
      simp [hpc, pcStep, closeStep, acquire, State.setPipe, h.lock] at hs
    | user => simp [hpc, pcStep] at hs
    | _ =>
      rw [hpc] at hfree
      cases hfree

/-- Where a call is that had come to its copying loop in `s`: at byte `i` of the loop, on its way
out, or back. -/
inductive CallAt (p : Proc) (n : ℤ) (k : ℕ) (s u : State) : Prop
  | loop (i : ℕ) (hpc : u.pc p = .readLoop n i) (hi : i ≤ k) (hc : Copied s u i i) (ha : Alone p u)
      (hret : u.trace.returned = s.trace.returned)
  | out (i j : ℕ) (hpc : u.pc p = .wakeup .nwrite j (.readDone i))
      (hc : Copied s u i (i + lost n k s.pipe.ring.used)) (ha : Alone p u)
      (hret : u.trace.returned = s.trace.returned)
  | back (i : ℕ) (hpc : u.pc p = .user) (hc : Copied s u i (i + lost n k s.pipe.ring.used))
      (hret : u.trace.returned = s.trace.returned ++ [⟨p, s.trace.calls p, .read, i⟩])

namespace CallAt
variable {n : ℤ} {u u' : State} {i j : ℕ}

theorem readLoopStep (hi : i ≤ k) (hc : Copied s u i i) (ha : Alone p u)
    (hret : u.trace.returned = s.trace.returned) :
    CallAt p n k s (readLoopStep p n i (decide (i < k)) u) := by
  obtain ⟨pc, hpc, -, hlock, -, hret'⟩ := readLoopStep_frame p n i (decide (i < k)) u
  have ha' := ha.go hlock hpc (.inl rfl)
  rcases hc.readLoopStep (p := p) (n := n) hi with ⟨hk, hp', hnext⟩ | ⟨hp', hend⟩
  · exact .loop (i + 1) hp' hk hnext ha' (hret'.trans hret)
  · exact .out i 0 hp' hend ha' (hret'.trans hret)

theorem wakeupStep (hc : Copied s u i (i + lost n k s.pipe.ring.used)) (ha : Alone p u)
    (hret : u.trace.returned = s.trace.returned)
    (hs : wakeupStep p .nwrite j (.readDone i) u = some u') : CallAt p n k s u' := by
  unfold Pipe.wakeupStep at hs
  dsimp only at hs
  split_ifs at hs <;> cases hs
  · exact .out i (j + 1) (State.go_pc_self ..) (hc.congr rfl rfl rfl) (ha.go rfl rfl (.inl rfl))
      hret
  · exact .out i (j + 1) (State.go_pc_self ..) (hc.congr rfl rfl rfl) (ha.go rfl rfl (.inl rfl))
      hret
  · refine .back i (State.go_pc_self ..) (hc.congr rfl rfl rfl) ?_
    rw [← hret, ← hc.calls]
    rfl

theorem own_step {ok : Bool} (h : CallAt p n k s u) (hok : Writable p k u (.go p ok))
    (hs : step u (.go p ok) = some u') : CallAt p n k s u' := by
  simp only [step] at hs
  split_ifs at hs
  cases h with
  | loop i hpc hi hc ha hret =>
    rw [hok rfl n i hpc, hpc] at hs
    cases hs
    exact readLoopStep hi hc ha hret
  | out i j hpc hc ha hret =>
    rw [hpc] at hs
    exact wakeupStep hc ha hret hs
  | back i hpc hc hret =>
    rw [hpc] at hs
    cases hs

theorem step {e : Event} (h : CallAt p n k s u) (hu : (u.pc p).isUser = false)
    (he : Writable p k u e) (hs : Pipe.step u e = some u') : CallAt p n k s u' := by
  by_cases hown : ∃ ok, e = .go p ok
  · obtain ⟨ok, rfl⟩ := hown
    exact h.own_step he hs
  · have hother (ha : Alone p u) := ha.step_other hu (fun ok heq => hown ⟨ok, heq⟩) hs
    cases h with
    | loop i hpc hi hc ha hret =>
      obtain ⟨hpipe, htrace, hpc', ha'⟩ := hother ha
      exact .loop i (hpc'.trans hpc) hi (hc.congr hpipe (by rw [htrace]) (by rw [htrace])) ha'
        (by rw [htrace]; exact hret)
    | out i j hpc hc ha hret =>
      obtain ⟨hpipe, htrace, hpc', ha'⟩ := hother ha
      exact .out i j (hpc'.trans hpc) (hc.congr hpipe (by rw [htrace]) (by rw [htrace])) ha'
        (by rw [htrace]; exact hret)
    | back i hpc hc hret =>
      rw [hpc] at hu
      cases hu

end CallAt

/-- The steps until the call of `p` is back, with a buffer of which the first `k` bytes are
writable. -/
def Reading (p : Proc) (k : ℕ) (s : State) (e : Event) : Prop :=
  Writable p k s e ∧ (s.pc p).isUser = false

theorem CallAt.run {n : ℤ} {u t : State} {es : List Event}
    (hrun : Run (sys.restrict (Reading p k)) u es t) (h : CallAt p n k s u) : CallAt p n k s t := by
  induction hrun with
  | nil _ => exact h
  | cons hstep _ ih => exact ih (h.step hstep.1.2 hstep.1.1 hstep.2)

theorem kept_iff {n : ℤ} {t : State} {i : ℕ} (h : Copied s t i (i + lost n k s.pipe.ring.used)) :
    t.pipe.ring.contents = s.pipe.ring.contents.drop i ↔ n ≤ k ∨ s.pipe.ring.used ≤ k := by
  have hle := h.le
  rw [h.left]
  rw [lost] at hle ⊢
  split
  · next hend => exact iff_of_true rfl hend
  · next hend =>
    refine iff_of_false ?_ hend
    intro heq
    rw [if_neg hend] at hle
    have hlen := congrArg List.length heq
    rw [List.length_drop, List.length_drop, RingBuf.length_contents] at hlen
    omega

/-! ## The result -/

/-- The call of `p` has returned `i`, the first `i` bytes of the pipe have been delivered, and
exactly these have been removed from the pipe just when the buffer was long enough for what was
asked for or for what was there. -/
def ReadBack (p : Proc) (n : ℤ) (k : ℕ) (s t : State) (i : ℕ) : Prop :=
  t.trace.returned = s.trace.returned ++ [⟨p, s.trace.calls p, .read, i⟩] ∧
    t.bytes .read = s.bytes .read ++ s.pipe.ring.contents.take i ∧
    i ≤ s.pipe.ring.contents.length ∧
    (t.pipe.ring.contents = s.pipe.ring.contents.drop i ↔ n ≤ k ∨ s.pipe.ring.used ≤ k)

theorem Copied.readBack {n : ℤ} {t : State} {i : ℕ}
    (h : Copied s t i (i + lost n k s.pipe.ring.used))
    (hret : t.trace.returned = s.trace.returned ++ [⟨p, s.trace.calls p, .read, i⟩]) :
    ReadBack p n k s t i := by
  refine ⟨hret, h.bytes, ?_, kept_iff h⟩
  rw [RingBuf.length_contents]
  exact (Nat.le_add_right _ _).trans h.le

/-- A read into a buffer of which only the first `k` bytes are writable, from the start of the loop
that copies: it can come to its end, and if the reader holds the lock, then in every run of it and
of the others it delivers the first bytes of the pipe and returns their number `i`; exactly these
are removed from the pipe just when the buffer is long enough for what is asked for or for what is
there. -/
theorem faulting_read_keeps_rest_iff {n : ℤ} (hp : s.pc p = .readLoop n 0) (hc : s.chan p = none)
    (hd : Dozing s) (k : ℕ) :
    (∃ es t i, Run (sys.restrict (Writable p k)) s es t ∧ ReadBack p n k s t i) ∧
    (Alone p s → ∀ es t, Run (sys.restrict (Reading p k)) s es t → (t.pc p).isUser = true →
      ∃ i, ReadBack p n k s t i) := by
  have hstart : Copied s s 0 0 :=
    ⟨by rw [List.take_zero, List.append_nil], rfl, Nat.zero_le _, rfl⟩
  constructor
  · obtain ⟨es, t, i, hrun, hpt, hdt, hct, hcopied, hret⟩ :=
      exists_copied (Nat.zero_le k) hd hc hp hstart
    obtain ⟨es', u, hrun', hpipe, htrace⟩ := exists_return (Nat.zero_add NPROC) hdt hct hpt
    refine ⟨_, u, i, hrun.append hrun', Copied.readBack (hcopied.congr hpipe ?_ ?_) ?_⟩
    · rw [htrace]
      rfl
    · rw [htrace]
      rfl
    · rw [htrace, Trace.finish, hret, hcopied.calls]
  · intro ha es t hrun huser
    cases CallAt.run hrun (.loop 0 hp (Nat.zero_le k) hstart ha rfl) with
    | loop i hpc | out i j hpc =>
      rw [hpc] at huser
      cases huser
    | back i _ hc hret => exact ⟨i, hc.readBack hret⟩

end

def oneByte : State :=
  { (fresh firstProc fun _ => 7).go firstProc (.readLoop 2 0) with
    pipe := { data := fun _ => 7, nread := 0, nwrite := 1, readopen := true, writeopen := true }
    lock := some firstProc }

theorem faulting_read_keeps_rest_iff_oneByte :
    (∃ es t, ∃ i : ℕ, Run (sys.restrict (Writable firstProc 1)) oneByte es t ∧
      t.pipe.ring.contents = oneByte.pipe.ring.contents.drop i) ∧
    Alone firstProc oneByte ∧
    ∀ es t, Run (sys.restrict (Reading firstProc 1)) oneByte es t →
      (t.pc firstProc).isUser = true →
        ∃ i, t.pipe.ring.contents = oneByte.pipe.ring.contents.drop i := by
  have hd : Dozing oneByte := fun _ _ => rfl
  have ha : Alone firstProc oneByte := by
    refine ⟨rfl, ?_⟩
    intro q hq
    have huser : oneByte.pc q = .user := State.go_pc_of_ne _ _ hq _
    rw [huser]
    rfl
  obtain ⟨⟨es, t, i, hrun, -, -, -, hiff⟩, hall⟩ :=
    faulting_read_keeps_rest_iff (p := firstProc) (n := 2) rfl rfl hd 1
  refine ⟨⟨es, t, i, hrun, hiff.mpr (.inr (by decide))⟩, ha, ?_⟩
  intro es' t' hrun' huser
  obtain ⟨i', -, -, -, hiff'⟩ := hall ha es' t' hrun' huser
  exact ⟨i', hiff'.mpr (.inr (by decide))⟩

def writeOne : List Event :=
  .write firstProc 1 (fun _ => 7) :: List.replicate (NPROC + 4) (.go firstProc true)

/-- Then it reads into a buffer that is not writable. The read returns 0, and the pipe is empty. -/
theorem faulting_read_loses_byte :
    (run (fun _ _ => True) writeOne).map (fun s => s.pipe.ring.contents) = some [7] ∧
    (run (fun _ _ => True) (writeOne ++ .read firstProc 1 ::
      List.replicate (NPROC + 3) (.go firstProc false))).map
        (fun s => (s.pipe.ring.contents, s.trace.returned.map Returned.value)) =
      some ([], [1, 0]) := by
  decide +kernel

end Xv6.Pipe
