import Xv6.Pipe.Ops

/-! # A pipe is a lossless queue

As long as both ends are open, no process is killed and the user copies succeed, the bytes read
are a prefix of the bytes written, the buffer holds the rest, and every call returns the number of
its own bytes, which for a write are the first bytes it was given. This holds however the calls
interleave and however often the counters wrap.
-/

namespace Xv6.Pipe
set_option autoImplicit false
open Function (update update_self update_of_ne update_eq_self)

/-! ## The history -/

/-- How many bytes of a log belong to call `c` of `p`. -/
def tally (log : List Moved) (p : Proc) (c : ℕ) : ℕ :=
  log.countP fun m => m.who = p ∧ m.call = c

theorem tally_append (log : List Moved) (p q : Proc) (c d : ℕ) (ch : UInt8) :
    tally (log ++ [⟨q, d, ch⟩]) p c = tally log p c + if q = p ∧ d = c then 1 else 0 := by
  simp [tally, List.countP_append, List.countP_singleton]

/-- The call a process is in: what it is and how many bytes it has moved. -/
abbrev Busy := Proc → Option (Kind × ℕ)

structure Trace.Ok (t : Trace) (busy : Busy) : Prop where
  later : ∀ kind p c, t.calls p < c → tally (t.moved kind) p c = 0
  running : ∀ p kind i, busy p = some (kind, i) →
    ∀ k, tally (t.moved k) p (t.calls p) = if k = kind then i else 0
  finished : ∀ r ∈ t.returned, r.value = tally (t.moved r.kind) r.who r.call ∧
    r.call ≤ t.calls r.who ∧ (r.call = t.calls r.who → busy r.who = none)

namespace Trace.Ok
variable {t : Trace} {busy : Busy} {p : Proc}

theorem start (h : t.Ok busy) (kind : Kind) :
    (t.start p).Ok (update busy p (some (kind, 0))) := by
  have hle : ∀ q, t.calls q ≤ (t.start p).calls q := by
    intro q
    by_cases hq : q = p
    · subst hq
      simp [Trace.start]
    · simp [Trace.start, update_of_ne hq]
  refine ⟨fun k q c hc => h.later k q c (lt_of_le_of_lt (hle q) hc), ?_, ?_⟩
  · intro q k i hb k'
    by_cases hq : q = p
    · subst hq
      rw [update_self] at hb
      obtain ⟨rfl, rfl⟩ : kind = k ∧ 0 = i := by simpa using hb
      rw [ite_self]
      exact h.later k' q _ (by simp [Trace.start])
    · rw [update_of_ne hq] at hb
      have hcalls : (t.start p).calls q = t.calls q := update_of_ne hq _ _
      rw [hcalls]
      exact h.running q k i hb k'
  · intro r hr
    obtain ⟨hval, hcall, hnone⟩ := h.finished r hr
    refine ⟨hval, le_trans hcall (hle r.who), ?_⟩
    intro heq
    by_cases hq : r.who = p
    · have hself : (t.start p).calls r.who = t.calls r.who + 1 := by
        rw [hq]
        exact update_self _ _ _
      omega
    · rw [update_of_ne hq]
      exact hnone (by rw [heq]; exact update_of_ne hq _ _)

theorem move {kind : Kind} {i : ℕ} (h : t.Ok busy) (hp : busy p = some (kind, i)) (ch : UInt8) :
    (t.move p kind ch).Ok (update busy p (some (kind, i + 1))) := by
  have htally : ∀ k q c, tally ((t.move p kind ch).moved k) q c =
      tally (t.moved k) q c + if k = kind ∧ p = q ∧ t.calls p = c then 1 else 0 := by
    intro k q c
    by_cases hk : k = kind
    · subst hk
      simp [Trace.move, tally_append]
    · simp [Trace.move, hk]
  refine ⟨?_, ?_, ?_⟩
  · intro k q c hc
    have hc : t.calls q < c := hc
    rw [htally, h.later k q c hc, if_neg]
    rintro ⟨-, rfl, hcall⟩
    omega
  · intro q k j hb k'
    show tally ((t.move p kind ch).moved k') q (t.calls q) = _
    rw [htally]
    by_cases hq : q = p
    · subst hq
      rw [update_self] at hb
      obtain ⟨rfl, rfl⟩ : kind = k ∧ i + 1 = j := by simpa using hb
      rw [h.running q kind i hp k']
      by_cases hk : k' = kind <;> simp [hk]
    · rw [update_of_ne hq] at hb
      have hother : ¬ (k' = kind ∧ p = q ∧ t.calls p = t.calls q) := fun hpq => hq hpq.2.1.symm
      rw [h.running q k j hb k', if_neg hother, Nat.add_zero]
  · intro r hr
    obtain ⟨hval, hcall, hnone⟩ := h.finished r hr
    have hother : ¬ (r.kind = kind ∧ p = r.who ∧ t.calls p = r.call) := by
      rintro ⟨-, rfl, heq⟩
      rw [hnone heq.symm] at hp
      cases hp
    refine ⟨?_, hcall, ?_⟩
    · rw [htally, if_neg hother]
      exact hval
    · intro heq
      have hne : r.who ≠ p := by
        rintro rfl
        rw [hnone heq] at hp
        cases hp
      rw [update_of_ne hne]
      exact hnone heq

theorem finish {kind : Kind} {i : ℕ} (h : t.Ok busy) (hp : busy p = some (kind, i)) :
    (t.finish p kind i).Ok (update busy p none) := by
  refine ⟨h.later, ?_, ?_⟩
  · intro q k j hb
    by_cases hq : q = p
    · subst hq
      rw [update_self] at hb
      cases hb
    · rw [update_of_ne hq] at hb
      exact h.running q k j hb
  · intro r hr
    rcases List.mem_append.mp hr with hr | hr
    · obtain ⟨hval, hcall, hnone⟩ := h.finished r hr
      refine ⟨hval, hcall, ?_⟩
      intro heq
      by_cases hq : r.who = p
      · rw [hq, update_self]
      · rw [update_of_ne hq]
        exact hnone heq
    · obtain rfl := List.mem_singleton.mp hr
      have hcount := h.running p kind i hp kind
      rw [if_pos rfl] at hcount
      refine ⟨?_, le_refl _, fun _ => update_self _ _ _⟩
      show (i : ℤ) = (tally (t.moved kind) p (t.calls p) : ℕ)
      rw [hcount]

end Trace.Ok

/-- The bytes that call `c` of `p` has put into the pipe. -/
def Trace.accepted (t : Trace) (p : Proc) (c : ℕ) : List UInt8 :=
  ((t.moved .write).filter fun m => m.who = p ∧ m.call = c).map Moved.byte

/-- What a call has put into the pipe are the first bytes it was given, in order. -/
def Trace.Sent (t : Trace) : Prop :=
  ∀ p c, t.accepted p c = (List.range (tally (t.moved .write) p c)).map (t.src p c)

namespace Trace.Sent
variable {t : Trace} {p : Proc} {ch : UInt8}

theorem offer (h : t.Sent) (hnone : tally (t.moved .write) p (t.calls p + 1) = 0)
    (src : ℕ → UInt8) : (t.offer p src).Sent := by
  intro q c
  by_cases hq : q = p ∧ c = t.calls p + 1
  · obtain ⟨rfl, rfl⟩ := hq
    have hnil : t.accepted q (t.calls q + 1) = [] := by rw [h, hnone, List.range_zero, List.map_nil]
    refine Eq.trans hnil ?_
    show [] = (List.range (tally (t.moved .write) q (t.calls q + 1))).map _
    rw [hnone, List.range_zero, List.map_nil]
  · rw [t.offer_src_of_ne p hq]
    exact h q c

theorem write (h : t.Sent)
    (hch : t.src p (t.calls p) (tally (t.moved .write) p (t.calls p)) = ch) :
    (t.move p .write ch).Sent := by
  intro q c
  show (((t.move p .write ch).moved .write).filter _).map _ = (List.range _).map (t.src q c)
  rw [t.move_moved_self, tally_append, List.filter_append, List.map_append]
  by_cases hq : p = q ∧ t.calls p = c
  · obtain ⟨rfl, rfl⟩ := hq
    rw [if_pos ⟨rfl, rfl⟩, List.range_succ, List.map_append, List.map_singleton, hch]
    congr 1
    · exact h p (t.calls p)
    · simp
  · rw [if_neg hq, Nat.add_zero, List.filter_cons_of_neg (by simpa using hq), List.filter_nil,
      List.map_nil, List.append_nil]
    exact h q c

theorem read (h : t.Sent) (p : Proc) (ch : UInt8) : (t.move p .read ch).Sent := by
  intro q c
  rw [Trace.accepted, t.move_moved_of_ne p (by decide)]
  exact h q c

end Trace.Sent

/-! ## The invariant -/

def Pc.progress : Pc → Option (Kind × ℕ)
  | user | closing _ | wakeup _ _ .closed => none
  | writeHead w | writeBody w | sleepWrite w | relockWrite w | wakeup _ _ (.writeSleep w) =>
    some (.write, w.i)
  | wakeup _ _ (.writeDone i) => some (.write, i)
  | readHead _ | readSleep _ | sleepRead _ | relockRead _ => some (.read, 0)
  | readLoop _ i | wakeup _ _ (.readDone i) => some (.read, i)

/-- The bytes at the address that a write has still to look at. -/
def Pc.src : Pc → Option (ℕ → UInt8)
  | writeHead w | writeBody w | sleepWrite w | relockWrite w | wakeup _ _ (.writeSleep w) =>
    some w.src
  | _ => none

def State.busy (s : State) : Busy := fun p => (s.pc p).progress

theorem State.busy_go (s : State) (p : Proc) (pc : Pc) :
    (s.go p pc).busy = update s.busy p pc.progress := by
  funext q
  by_cases hq : q = p
  · subst hq
    simp [busy, go]
  · simp [busy, go, update_of_ne hq]

def State.bytes (s : State) (kind : Kind) : List UInt8 := (s.trace.moved kind).map Moved.byte

def Pc.isClosing : Pc → Bool
  | closing _ => true
  | _ => false

structure Fifo (s : State) : Prop where
  unkilled : ∀ p, s.killed p = false
  unclosed : ∀ p, (s.pc p).isClosing = false
  readopen : s.pipe.readopen = true
  writeopen : s.pipe.writeopen = true
  fits : s.pipe.ring.used ≤ PIPESIZE
  stream : s.bytes .write = s.bytes .read ++ s.pipe.ring.contents
  trace : s.trace.Ok s.busy
  sent : s.trace.Sent
  given : ∀ p src, (s.pc p).src = some src → s.trace.src p (s.trace.calls p) = src

theorem used_fresh (p : Proc) (data : Fin PIPESIZE → UInt8) : (fresh p data).pipe.ring.used = 0 :=
  RingBuf.used_eq_zero.mpr rfl

theorem fifo_fresh (p : Proc) (data : Fin PIPESIZE → UInt8) : Fifo (fresh p data) where
  unkilled _ := rfl
  unclosed _ := rfl
  readopen := rfl
  writeopen := rfl
  fits := by
    rw [used_fresh]
    exact Nat.zero_le _
  stream := by
    have hnil : (fresh p data).pipe.ring.contents = [] := by
      apply List.eq_nil_of_length_eq_zero
      rw [RingBuf.length_contents, used_fresh]
    rw [hnil]
    rfl
  trace := by
    refine ⟨fun _ _ _ _ => rfl, ?_, ?_⟩
    · intro q kind i h
      cases h
    · intro r h
      cases h
  sent _ _ := rfl
  given _ _ h := by cases h

namespace Fifo
variable {s : State} {p : Proc} {s' : State} {pc : Pc} {i : ℕ} {w : Write} {n : ℤ}

section
variable (h : Fifo s)
include h

theorem unclosed_update (hpc : s'.pc = update s.pc p pc) (hclosing : pc.isClosing = false)
    (q : Proc) : (s'.pc q).isClosing = false := by
  rw [hpc]
  by_cases hq : q = p
  · rw [hq, update_self]
    exact hclosing
  · rw [update_of_ne hq]
    exact h.unclosed q

theorem given_update {t : Trace} (hpc : s'.pc = update s.pc p pc) (hcalls : t.calls = s.trace.calls)
    (htsrc : t.src = s.trace.src) (hsrc : pc.src = none ∨ pc.src = (s.pc p).src) (q : Proc)
    (src : ℕ → UInt8) (hq : (s'.pc q).src = some src) : t.src q (t.calls q) = src := by
  rw [hcalls, htsrc]
  apply h.given q src
  rw [hpc] at hq
  by_cases hqp : q = p
  · subst hqp
    rw [update_self] at hq
    rcases hsrc with hnone | heq
    · rw [hnone] at hq
      cases hq
    · rw [← heq]
      exact hq
  · rw [update_of_ne hqp] at hq
    exact hq

theorem go (hpipe : s'.pipe = s.pipe) (htrace : s'.trace = s.trace) (hkilled : s'.killed = s.killed)
    (hpc : s'.pc = update s.pc p pc) (hclosing : pc.isClosing = false)
    (hprogress : pc.progress = (s.pc p).progress)
    (hsrc : pc.src = none ∨ pc.src = (s.pc p).src) : Fifo s' := by
  refine ⟨?_, ?_, ?_, ?_, ?_, ?_, ?_, ?_, ?_⟩
  · rw [hkilled]
    exact h.unkilled
  · exact unclosed_update h hpc hclosing
  · rw [hpipe]
    exact h.readopen
  · rw [hpipe]
    exact h.writeopen
  · rw [hpipe]
    exact h.fits
  · rw [State.bytes, State.bytes, hpipe, htrace]
    exact h.stream
  · have hbusy : s'.busy = (s.go p pc).busy := by
      unfold State.busy
      rw [hpc]
      rfl
    rw [htrace, hbusy, State.busy_go, hprogress]
    have hself : update s.busy p (s.pc p).progress = s.busy :=
      update_eq_self p s.busy
    rw [hself]
    exact h.trace
  · rw [htrace]
    exact h.sent
  · exact h.given_update hpc (by rw [htrace]) (by rw [htrace]) hsrc

theorem ret {kind : Kind} (hpc : (s.pc p).progress = some (kind, i)) : Fifo (s.ret p kind i) := by
  refine ⟨h.unkilled, unclosed_update h rfl rfl, h.readopen, h.writeopen, h.fits, h.stream, ?_,
    h.sent, h.given_update rfl rfl rfl (.inl rfl)⟩
  show (s.trace.finish p kind i).Ok (s.go p .user).busy
  rw [State.busy_go]
  exact h.trace.finish hpc

theorem put (hpc : (s.pc p).progress = some (.write, w.i)) (hsrc : (s.pc p).src = some w.src)
    (hfull : s.pipe.nwrite ≠ s.pipe.nread + BitVec.ofNat 32 PIPESIZE) :
    Fifo ((s.put p (w.src w.i)).go p (.writeHead { w with i := w.i + 1 })) := by
  set ch := w.src w.i with hch
  have hroom : s.pipe.ring.used < PIPESIZE := by
    refine lt_of_le_of_ne h.fits ?_
    intro heq
    exact hfull ((RingBuf.used_eq_iff (by decide)).mp heq)
  have hring : ((s.put p ch).go p (.writeHead { w with i := w.i + 1 })).pipe.ring =
    s.pipe.ring.push ch := rfl
  refine ⟨h.unkilled, unclosed_update h rfl rfl, h.readopen, h.writeopen, ?_, ?_, ?_,
    h.sent.write ?_, h.given_update rfl rfl rfl (.inr hsrc.symm)⟩
  · rw [hring, RingBuf.used_push (by decide) hroom]
    omega
  · have hstream := h.stream
    rw [hring, RingBuf.contents_push (by decide) (by decide) hroom]
    simp only [State.bytes] at hstream ⊢
    simp [State.go, State.put, Trace.move, hstream]
  · show (s.trace.move p .write ch).Ok _
    rw [State.busy_go]
    exact h.trace.move hpc ch
  · have hcount := h.trace.running p .write w.i hpc .write
    rw [if_pos rfl] at hcount
    rw [hcount, h.given p w.src hsrc]

theorem take (hpc : (s.pc p).progress = some (.read, i)) (hne : s.pipe.nread ≠ s.pipe.nwrite) :
    Fifo ((s.take.deliver p s.head).go p (.readLoop n (i + 1))) := by
  have hused : 0 < s.pipe.ring.used :=
    Nat.pos_of_ne_zero fun h0 => hne (RingBuf.used_eq_zero.mp h0)
  obtain ⟨hcontents, hpop⟩ := RingBuf.contents_pop hused
  have hring : ((s.take.deliver p s.head).go p (.readLoop n (i + 1))).pipe.ring =
    s.pipe.ring.pop := rfl
  have hfits := h.fits
  refine ⟨h.unkilled, unclosed_update h rfl rfl, h.readopen, h.writeopen, ?_, ?_, ?_,
    h.sent.read p _, h.given_update rfl rfl rfl (.inl rfl)⟩
  · rw [hring]
    omega
  · have hstream := h.stream
    rw [hcontents] at hstream
    rw [hring]
    simp only [State.bytes] at hstream ⊢
    simp only [State.go, State.deliver, State.take, State.setPipe, Trace.move, ne_eq, reduceCtorEq,
      not_false_eq_true, update_of_ne, update_self, List.map_append,
      List.map_singleton, List.append_assoc, List.singleton_append]
    exact hstream
  · show (s.trace.move p .read s.head).Ok _
    rw [State.busy_go]
    exact h.trace.move hpc s.head

/-! ## The steps -/

theorem writeHeadStep (hpc : s.pc p = .writeHead w) : Fifo (writeHeadStep p w s) := by
  unfold Pipe.writeHeadStep
  split_ifs with hn hstop
  · rw [h.readopen, h.unkilled p] at hstop
    simp at hstop
  · exact h.go rfl rfl rfl rfl rfl (by rw [hpc]; rfl) (.inr (by rw [hpc]; rfl))
  · exact h.go rfl rfl rfl rfl rfl (by rw [hpc]; rfl) (.inl rfl)

theorem writeBodyStep (hpc : s.pc p = .writeBody w) : Fifo (writeBodyStep p w true s) := by
  unfold Pipe.writeBodyStep
  split_ifs with hfull hok
  · exact h.go rfl rfl rfl rfl rfl (by rw [hpc]; rfl) (.inr (by rw [hpc]; rfl))
  · exact h.put (by rw [hpc]; rfl) (by rw [hpc]; rfl) hfull
  · exact absurd rfl hok

theorem readHeadStep (hpc : s.pc p = .readHead n) : Fifo (readHeadStep p n s) := by
  unfold Pipe.readHeadStep
  split_ifs with hempty hkilled
  · rw [h.unkilled p] at hkilled
    cases hkilled
  · exact h.go rfl rfl rfl rfl rfl (by rw [hpc]; rfl) (.inl rfl)
  · exact h.go rfl rfl rfl rfl rfl (by rw [hpc]; rfl) (.inl rfl)

theorem readLoopStep (hpc : s.pc p = .readLoop n i) : Fifo (readLoopStep p n i true s) := by
  unfold Pipe.readLoopStep
  split_ifs with hmore hok
  · exact h.take (by rw [hpc]; rfl) hmore.2
  · exact absurd rfl hok
  · exact h.go rfl rfl rfl rfl rfl (by rw [hpc]; rfl) (.inl rfl)

theorem wakeEnd {chan : Chan} {k : ℕ} {ret : WakeRet} (hpc : s.pc p = .wakeup chan k ret) :
    Fifo (wakeEnd p s ret) := by
  cases ret with
  | writeSleep w | closed =>
    exact h.go rfl rfl rfl rfl rfl (by rw [hpc]; rfl) (.inr (by rw [hpc]; rfl))
  | writeDone i | readDone i => exact h.ret (by rw [hpc]; rfl)

theorem wakeupStep {chan : Chan} {k : ℕ} {ret : WakeRet} (hpc : s.pc p = .wakeup chan k ret)
    (hs : wakeupStep p chan k ret s = some s') : Fifo s' := by
  have hprogress : (Pc.wakeup chan (k + 1) ret).progress = (s.pc p).progress := by
    rw [hpc]
    cases ret <;> rfl
  have hsrc : (Pc.wakeup chan (k + 1) ret).src = (s.pc p).src := by
    rw [hpc]
    cases ret <;> rfl
  unfold Pipe.wakeupStep at hs
  dsimp only at hs
  split_ifs at hs with hk hq hdoze <;> cases hs
  · exact h.go rfl rfl rfl rfl rfl hprogress (.inr hsrc)
  · exact h.go rfl rfl rfl rfl rfl hprogress (.inr hsrc)
  · exact h.wakeEnd hpc

theorem acquire (hclosing : pc.isClosing = false) (hprogress : pc.progress = (s.pc p).progress)
    (hsrc : pc.src = (s.pc p).src) (hs : acquire p pc s = some s') : Fifo s' := by
  unfold Pipe.acquire at hs
  split_ifs at hs
  cases hs
  exact h.go rfl rfl rfl rfl hclosing hprogress (.inr hsrc)

theorem pcStep (hs : pcStep p true s (s.pc p) = some s') : Fifo s' := by
  cases hpc : s.pc p with
  | user =>
    rw [hpc] at hs
    cases hs
  | writeHead w =>
    rw [hpc] at hs
    cases hs
    exact h.writeHeadStep hpc
  | writeBody w =>
    rw [hpc] at hs
    cases hs
    exact h.writeBodyStep hpc
  | readHead n =>
    rw [hpc] at hs
    cases hs
    exact h.readHeadStep hpc
  | readSleep n | sleepWrite w | sleepRead n =>
    rw [hpc] at hs
    cases hs
    exact h.go rfl rfl rfl rfl rfl (by rw [hpc]; rfl) (.inr (by rw [hpc]; rfl))
  | readLoop n i =>
    rw [hpc] at hs
    cases hs
    exact h.readLoopStep hpc
  | wakeup chan k ret =>
    rw [hpc] at hs
    exact h.wakeupStep hpc hs
  | relockWrite w | relockRead n =>
    rw [hpc] at hs
    exact h.acquire rfl (by rw [hpc]; rfl) (by rw [hpc]; rfl) hs
  | closing writable =>
    have hopen := h.unclosed p
    rw [hpc] at hopen
    cases hopen

theorem offer (src : ℕ → UInt8) : Fifo { s with trace := s.trace.offer p src } := by
  refine ⟨h.unkilled, h.unclosed, h.readopen, h.writeopen, h.fits, h.stream,
    ⟨h.trace.later, h.trace.running, h.trace.finished⟩,
    h.sent.offer (h.trace.later .write p _ (Nat.lt_succ_self _)) src, ?_⟩
  intro q src' hq
  refine (s.trace.offer_src_of_ne p ?_ src).trans (h.given q src' hq)
  rintro ⟨rfl, hcall⟩
  exact absurd hcall.symm (Nat.succ_ne_self _)

theorem enter {kind : Kind} (hclosing : pc.isClosing = false)
    (hprogress : pc.progress = some (kind, 0))
    (hsrc : ∀ src, pc.src = some src → s.trace.src p (s.trace.calls p + 1) = src)
    (hs : enter p pc s = some s') : Fifo s' := by
  unfold Pipe.enter Pipe.acquire at hs
  split_ifs at hs
  cases hs
  refine ⟨h.unkilled, unclosed_update h rfl hclosing, h.readopen, h.writeopen, h.fits, h.stream, ?_,
    h.sent, ?_⟩
  · show (s.trace.start p).Ok (s.go p pc).busy
    rw [State.busy_go, hprogress]
    exact h.trace.start kind
  · intro q src hq
    change ((s.go p pc).pc q).src = some src at hq
    show s.trace.src q (update s.trace.calls p (s.trace.calls p + 1) q) = src
    by_cases hqp : q = p
    · subst hqp
      rw [s.go_pc_self] at hq
      rw [update_self]
      exact hsrc src hq
    · rw [s.go_pc_of_ne p hqp] at hq
      rw [update_of_ne hqp]
      exact h.given q src hq

end

end Fifo

/-- The calls of `pipewrite` and `piperead` with valid user addresses, and `fork`. -/
def Event.Plain : Event → Prop
  | write .. | read .. | fork .. => True
  | go _ ok => ok = true
  | close .. | kill _ => False

theorem Fifo.step {s s' : State} {e : Event} (h : Fifo s) (he : e.Plain)
    (hs : step s e = some s') : Fifo s' := by
  cases e with
  | write p n src =>
    simp only [Pipe.step] at hs
    split_ifs at hs
    refine (h.offer src).enter rfl rfl ?_ hs
    intro src' heq
    obtain rfl := Option.some.inj heq
    exact s.trace.offer_src_self p src
  | read p n =>
    simp only [Pipe.step] at hs
    split_ifs at hs
    exact h.enter rfl rfl (fun _ heq => by cases heq) hs
  | fork p q =>
    simp only [Pipe.step] at hs
    split_ifs at hs
    cases hs
    refine ⟨?_, h.unclosed, h.readopen, h.writeopen, h.fits, h.stream, h.trace, h.sent, h.given⟩
    intro r
    by_cases hr : r = q
    · rw [hr]
      exact update_self _ _ _
    · exact (update_of_ne hr _ _).trans (h.unkilled r)
  | go p ok =>
    obtain rfl : ok = true := he
    simp only [Pipe.step] at hs
    split_ifs at hs
    exact h.pcStep hs
  | close p writable | kill q => exact he.elim

theorem fifo_of_plain {s : State} (hs : (sys.restrict fun _ e => e.Plain).Reachable s) :
    Fifo s := by
  refine hs.invariant ?_ ?_
  · rintro s ⟨p, data, rfl⟩
    exact fifo_fresh p data
  · intro s e s' h hstep
    exact h.step hstep.1 hstep.2

/-- In every run of calls to `pipewrite` and `piperead`: the bytes read are the first of the bytes
written, the buffer holds exactly the others, at most `PIPESIZE` of them; every call that has
returned has returned the number of its own bytes; and the bytes of a write are the first ones of
those it was given, each of them once and in their order. -/
theorem lossless_fifo {s : State} (hs : (sys.restrict fun _ e => e.Plain).Reachable s) :
    s.bytes .read <+: s.bytes .write ∧
    s.bytes .write = s.bytes .read ++ s.pipe.ring.contents ∧
    (s.pipe.nwrite - s.pipe.nread).toNat ≤ PIPESIZE ∧
    (∀ r ∈ s.trace.returned, r.value = tally (s.trace.moved r.kind) r.who r.call) ∧
    ∀ p c, s.trace.accepted p c =
      (List.range (tally (s.trace.moved .write) p c)).map (s.trace.src p c) := by
  have h := fifo_of_plain hs
  refine ⟨?_, h.stream, h.fits, fun r hr => (h.trace.finished r hr).1, h.sent⟩
  rw [h.stream]
  exact List.prefix_append _ _

instance : DecidablePred Event.Plain
  | .write .. | .read .. | .fork .. => isTrue trivial
  | .go _ ok => inferInstanceAs (Decidable (ok = true))
  | .close .. | .kill _ => isFalse id

def sevenEight : ℕ → UInt8 := fun i => if i = 0 then 7 else 8

def writeTwoReadTwo : List Event :=
  Event.write firstProc 2 sevenEight :: List.replicate (5 + NPROC + 1) (Event.go firstProc true) ++
  Event.read firstProc 2 :: List.replicate (4 + NPROC + 1) (Event.go firstProc true)

theorem lossless_fifo_writeTwoReadTwo : ∃ s : State,
    (sys.restrict fun _ e => e.Plain).Reachable s ∧
    s.trace.returned.map (fun r => r.value) = [2, 2] ∧
    s.bytes .read = [7, 8] ∧ s.bytes .write = [7, 8] ++ s.pipe.ring.contents ∧
    (∀ r ∈ s.trace.returned, r.value = tally (s.trace.moved r.kind) r.who r.call) ∧
    s.trace.accepted firstProc 1 = (List.range 2).map (s.trace.src firstProc 1) ∧
    (List.range 2).map (s.trace.src firstProc 1) = [sevenEight 0, sevenEight 1] := by
  have hrun : (run (fun _ e => e.Plain) writeTwoReadTwo).map (fun s =>
      (s.trace.returned.map (fun r => r.value), s.bytes .read,
        tally (s.trace.moved .write) firstProc 1,
        (List.range 2).map (s.trace.src firstProc 1))) = some ([2, 2], [7, 8], 2, [7, 8]) := by
    decide +kernel
  obtain ⟨s, hs, h⟩ := Option.map_eq_some_iff.mp hrun
  simp only [Prod.mk.injEq] at h
  obtain ⟨hvalues, hread, htally, hsrc⟩ := h
  have hreach := reachable_of_run hs
  obtain ⟨-, hstream, -, hret, hsent⟩ := lossless_fifo hreach
  rw [hread] at hstream
  have haccepted := hsent firstProc 1
  rw [htally] at haccepted
  exact ⟨s, hreach, hvalues, hread, hstream, hret, haccepted, hsrc⟩

end Xv6.Pipe
