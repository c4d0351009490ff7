import Xv6.Bio.Journal

/-! # What holds between the cache, the log and the disk

A block whose last modification is not on the disk yet is in a buffer that cannot be recycled: it is
listed in the log and pinned, or its buffer is locked. The process in `commit` knows how far it has
got; what it knows is stable because no operation is active while it runs.
-/

namespace Xv6.Bio.Journal
set_option autoImplicit false

/-! ## What `commit` knows -/

/-- The part of the state that only `commit` changes while it runs. -/
structure Shared where
  lh : List ℕ
  unpinned : ℕ
  last : ℕ → Block
  disk : ℕ → Block

def State.shared (c : Layout) (s : State) : Shared := ⟨s.log.lh, s.unpinned, s.last, s.disk c.dev⟩

namespace Shared
variable (c : Layout) (t : Shared)

def Copied (k : ℕ) : Prop := ∀ i m, i < k → t.lh[i]? = some m → t.last (c.start + i + 1) = t.last m

def Writing (k : ℕ) : Prop := t.unpinned = 0 ∧ t.Copied c k

def HeadReady : Bool → Prop
  | false => t.unpinned = 0 ∧ t.Copied c t.lh.length
  | true => t.unpinned = 0 ∧ t.lh = []

def Installing (k : ℕ) : Prop :=
  t.unpinned = k ∧ t.Copied c t.lh.length ∧ readHead (t.disk c.start) = t.lh

end Shared

def Bread.other : Bread → Option BufId
  | logFrom _ b | instDst _ b => some b
  | user | logTo _ | head _ | instLog _ => none

def Brelse.other : Brelse → Option BufId
  | logFrom _ b | instLog _ b => some b
  | user | logTo _ | head _ | instDst _ => none

section Knows
variable (c : Layout) (s : State) (p : Proc)

structure HeldBy (b : BufId) (m : ℕ) : Prop where
  lock : s.lock b = some p
  holds : s.cache.Holds b c.dev m
  valid : (s.cache.buf b).valid = true

structure Clean (b : BufId) (m : ℕ) : Prop extends HeldBy c s p b m where
  clean : s.dirty b = false

def BreadOk (m : ℕ) : Bread → Prop
  | .user => True
  | .logTo tail => m = c.start + tail + 1 ∧ tail < s.log.lh.length ∧ (s.shared c).Writing c tail
  | .logFrom tail dst => s.log.lh[tail]? = some m ∧ Clean c s p dst (c.start + tail + 1) ∧
      (s.shared c).Writing c tail
  | .head clear => m = c.start ∧ (s.shared c).HeadReady c clear
  | .instLog tail => m = c.start + tail + 1 ∧ tail < s.log.lh.length ∧
      (s.shared c).Installing c tail
  | .instDst tail lbuf => s.log.lh[tail]? = some m ∧ Clean c s p lbuf (c.start + tail + 1) ∧
      (s.shared c).Installing c tail

def BrelseOk : Brelse → Prop
  | .user => True
  | .logFrom tail dst => Clean c s p dst (c.start + tail + 1) ∧ (s.shared c).Writing c (tail + 1)
  | .logTo tail => (s.shared c).Writing c (tail + 1)
  | .head false => (s.shared c).Installing c 0
  | .head true => (s.shared c).HeadReady c true
  | .instLog tail dbuf => (∃ m, Clean c s p dbuf m) ∧ (s.shared c).Installing c (tail + 1)
  | .instDst tail => (s.shared c).Installing c (tail + 1)

def PcOk : Pc → Prop
  | .user => True
  | .bget m ret => m < 4294967296 ∧ BreadOk c s p m ret
  | .waiting b m ret => s.cache.Holds b c.dev m ∧ BreadOk c s p m ret
  | .fill b m ret => s.lock b = some p ∧ s.cache.Holds b c.dev m ∧ s.dirty b = false ∧
      BreadOk c s p m ret
  | .unlock b ret => (s.lock b = some p → s.dirty b = false) ∧ ret.other ≠ some b ∧
      BrelseOk c s p ret
  | .drop _ ret => BrelseOk c s p ret
  | .writeLog tail => (s.shared c).Writing c tail
  | .writeLogCopy tail dst src => Clean c s p dst (c.start + tail + 1) ∧
      (∃ m, s.log.lh[tail]? = some m ∧ Clean c s p src m) ∧ (s.shared c).Writing c tail
  | .writeLogWrite tail dst src => HeldBy c s p dst (c.start + tail + 1) ∧
      (∃ m, s.log.lh[tail]? = some m ∧ Clean c s p src m) ∧ (s.shared c).Writing c (tail + 1)
  | .headStore clear b => Clean c s p b c.start ∧ (s.shared c).HeadReady c clear
  | .headWrite clear b => HeldBy c s p b c.start ∧ (s.shared c).HeadReady c clear ∧
      readHead (s.last c.start) = s.log.lh
  | .install tail => (s.shared c).Installing c tail
  | .installCopy tail lbuf dbuf | .installWrite tail lbuf dbuf =>
      Clean c s p lbuf (c.start + tail + 1) ∧
      (∃ m, s.log.lh[tail]? = some m ∧ Clean c s p dbuf m) ∧ (s.shared c).Installing c tail
  | .installUnpin tail lbuf dbuf => Clean c s p lbuf (c.start + tail + 1) ∧
      (∃ m, s.log.lh[tail]? = some m ∧ Clean c s p dbuf m ∧ s.disk c.dev m = s.last m) ∧
      (s.shared c).Installing c tail
  | .clear => s.log.lh.drop s.unpinned = []
  | .endCommit => (s.shared c).HeadReady c true

end Knows

/-! ## Stability -/

def Bread.commits : Bread → Bool
  | user => false
  | _ => true

def Brelse.commits : Brelse → Bool
  | user => false
  | _ => true

def Pc.commits : Pc → Bool
  | user => false
  | bget _ ret | waiting _ _ ret | fill _ _ ret => ret.commits
  | unlock _ ret | drop _ ret => ret.commits
  | _ => true

structure Keeps (c : Layout) (s s' : State) (q : Proc) (a : BufId) : Prop where
  lock : s.lock a = some q → s'.lock a = some q
  holds : ∀ m, s.lock a = some q → s.cache.Holds a c.dev m → s'.cache.Holds a c.dev m
  valid : s.lock a = some q → (s.cache.buf a).valid = true → (s'.cache.buf a).valid = true
  dirty : s.lock a = some q → s'.dirty a = s.dirty a

/-- A step from `s` to `s'` leaves alone what `q` relies on. -/
structure Frame (c : Layout) (s s' : State) (q : Proc) : Prop where
  keeps : ∀ a, Keeps c s s' q a
  gained : ∀ a, s'.lock a = some q → s.lock a = some q
  waits : ∀ a m, (s.pc q).ref = some a → s.cache.Holds a c.dev m → s'.cache.Holds a c.dev m
  shared : (s.pc q).commits = true → s'.shared c = s.shared c

section Frame
variable {c : Layout} {s s' : State} {q : Proc} {m : ℕ}

theorem HeldBy.frame {b : BufId} (h : HeldBy c s q b m) (hk : Keeps c s s' q b) :
    HeldBy c s' q b m :=
  ⟨hk.lock h.lock, hk.holds m h.lock h.holds, hk.valid h.lock h.valid⟩

theorem Clean.frame {b : BufId} (h : Clean c s q b m) (hk : Keeps c s s' q b) : Clean c s' q b m :=
  ⟨h.toHeldBy.frame hk, (hk.dirty h.lock).trans h.clean⟩

theorem BreadOk.frame {ret : Bread} (h : BreadOk c s q m ret)
    (hk : ∀ a, ret.other = some a → Keeps c s s' q a)
    (hshared : ret.commits = true → s'.shared c = s.shared c) : BreadOk c s' q m ret := by
  cases ret with
  | user => trivial
  | logTo tail | instLog tail =>
    have hsh := hshared rfl
    have hlh : s'.log.lh = s.log.lh := congrArg Shared.lh hsh
    unfold BreadOk at h ⊢
    rw [hsh, hlh]
    exact h
  | logFrom tail b | instDst tail b =>
    have hsh := hshared rfl
    have hlh : s'.log.lh = s.log.lh := congrArg Shared.lh hsh
    obtain ⟨hm, hclean, hst⟩ := h
    unfold BreadOk
    rw [hsh, hlh]
    exact ⟨hm, hclean.frame (hk b rfl), hst⟩
  | head clear =>
    unfold BreadOk at h ⊢
    rw [hshared rfl]
    exact h

theorem BrelseOk.frame {ret : Brelse} (h : BrelseOk c s q ret)
    (hk : ∀ a, ret.other = some a → Keeps c s s' q a)
    (hshared : ret.commits = true → s'.shared c = s.shared c) : BrelseOk c s' q ret := by
  cases ret with
  | user => trivial
  | logFrom tail dst =>
    unfold BrelseOk
    rw [hshared rfl]
    exact ⟨h.1.frame (hk dst rfl), h.2⟩
  | logTo tail | instDst tail =>
    unfold BrelseOk at h ⊢
    rw [hshared rfl]
    exact h
  | head clear =>
    cases clear <;>
    · unfold BrelseOk at h ⊢
      rw [hshared rfl]
      exact h
  | instLog tail dbuf =>
    obtain ⟨⟨m, hclean⟩, hst⟩ := h
    unfold BrelseOk
    rw [hshared rfl]
    exact ⟨⟨m, hclean.frame (hk dbuf rfl)⟩, hst⟩

theorem PcOk.frame {pc : Pc} (hpc : s.pc q = pc) (h : PcOk c s q pc) (hf : Frame c s s' q) :
    PcOk c s' q pc := by
  have hshared := hf.shared
  rw [hpc] at hshared
  cases pc with
  | user => trivial
  | bget m ret => exact ⟨h.1, h.2.frame (fun a _ => hf.keeps a) hshared⟩
  | waiting b m ret =>
    exact ⟨hf.waits b m (by rw [hpc]; rfl) h.1, h.2.frame (fun a _ => hf.keeps a) hshared⟩
  | fill b m ret =>
    obtain ⟨hlock, hholds, hclean, hret⟩ := h
    exact ⟨(hf.keeps b).lock hlock, (hf.keeps b).holds m hlock hholds,
      ((hf.keeps b).dirty hlock).trans hclean, hret.frame (fun a _ => hf.keeps a) hshared⟩
  | unlock b ret =>
    refine ⟨?_, h.2.1, h.2.2.frame (fun a _ => hf.keeps a) hshared⟩
    intro hlock
    have hlock := hf.gained b hlock
    exact ((hf.keeps b).dirty hlock).trans (h.1 hlock)
  | drop b ret => exact BrelseOk.frame h (fun a _ => hf.keeps a) hshared
  | writeLog tail | install tail | endCommit =>
    unfold PcOk at h ⊢
    rw [hshared rfl]
    exact h
  | writeLogCopy tail dst src | writeLogWrite tail dst src | installCopy tail dst src
  | installWrite tail dst src =>
    have hsh := hshared rfl
    have hlh : s'.log.lh = s.log.lh := congrArg Shared.lh hsh
    obtain ⟨hdst, ⟨m, hm, hsrc⟩, hst⟩ := h
    unfold PcOk
    rw [hsh, hlh]
    exact ⟨hdst.frame (hf.keeps _), ⟨m, hm, hsrc.frame (hf.keeps _)⟩, hst⟩
  | headStore clear b =>
    unfold PcOk
    rw [hshared rfl]
    exact ⟨h.1.frame (hf.keeps _), h.2⟩
  | headWrite clear b =>
    have hsh := hshared rfl
    have hlh : s'.log.lh = s.log.lh := congrArg Shared.lh hsh
    have hlast : s'.last = s.last := congrArg Shared.last hsh
    unfold PcOk
    rw [hsh, hlh, hlast]
    exact ⟨h.1.frame (hf.keeps _), h.2⟩
  | installUnpin tail lbuf dbuf =>
    have hsh := hshared rfl
    have hlh : s'.log.lh = s.log.lh := congrArg Shared.lh hsh
    have hlast : s'.last = s.last := congrArg Shared.last hsh
    have hdisk : s'.disk c.dev = s.disk c.dev := congrArg Shared.disk hsh
    obtain ⟨hlog, ⟨m, hm, hdst, hd⟩, hst⟩ := h
    unfold PcOk
    rw [hsh, hlh, hlast, hdisk]
    exact ⟨hlog.frame (hf.keeps _), ⟨m, hm, hdst.frame (hf.keeps _), hd⟩, hst⟩
  | clear =>
    have hsh := hshared rfl
    have hlh : s'.log.lh = s.log.lh := congrArg Shared.lh hsh
    have hun : s'.unpinned = s.unpinned := congrArg Shared.unpinned hsh
    unfold PcOk
    rw [hlh, hun]
    exact h

end Frame

/-! ## The invariant -/

def State.ref (s : State) : Proc → Option BufId := fun p => (s.pc p).ref

def State.owed (s : State) : BufId → ℕ := Bio.owed s.ref s.lock s.pins

def State.pinned (s : State) : List ℕ := s.log.lh.drop s.unpinned

def pinsOf (c : Layout) (pinned : List ℕ) (x : Buf) : ℕ :=
  if x.dev = c.dev ∧ x.blockno ∈ pinned then 1 else 0

theorem pinsOf_same {c : Layout} {pinned : List ℕ} {x y : Buf} (hdev : x.dev = y.dev)
    (hblockno : x.blockno = y.blockno) : pinsOf c pinned x = pinsOf c pinned y := by
  simp only [pinsOf, hdev, hblockno]

structure LogOk (c : Layout) (s : State) : Prop where
  nodup : s.log.lh.Nodup
  home : ∀ m ∈ s.log.lh, c.Home m ∧ m < 4294967296
  size : s.log.size = c.size
  length : s.log.lh.length ≤ LOGSIZE ∧ s.log.lh.length ≤ c.size - 1
  ops : countOf (fun p => some (s.inOp p)) true = s.log.outstanding
  quiet : s.log.committing = true → s.log.outstanding = 0
  running : s.log.committing = false → s.unpinned = 0
  commits : ∀ p, (s.pc p).commits = true → s.log.committing = true
  one : ∀ p q, (s.pc p).commits = true → (s.pc q).commits = true → p = q

structure Inv (c : Layout) (s : State) : Prop where
  ok : ∃ l, s.cache.Ok l s.owed
  uint : ∀ b, (s.cache.buf b).blockno < 4294967296
  held : ∀ b p, s.lock b = some p → (s.cache.buf b).dev = c.dev ∧
    ((s.cache.buf b).valid = true ∨ ∃ m ret, s.pc p = .fill b m ret)
  data : ∀ b, (s.cache.buf b).valid = true → (s.cache.buf b).dev = c.dev →
    (s.cache.buf b).data = s.last (s.cache.buf b).blockno
  disk : ∀ m, s.disk c.dev m = s.last m ∨ m ∈ s.pinned ∨
    ∃ b, s.dirty b = true ∧ s.cache.Holds b c.dev m
  dirty : ∀ b, s.dirty b = true → (s.cache.buf b).valid = true ∧ s.lock b ≠ none
  pins : ∀ b, s.pins b = pinsOf c s.pinned (s.cache.buf b)
  cached : ∀ m ∈ s.pinned, ∃ b, s.cache.Holds b c.dev m ∧ (s.cache.buf b).valid = true
  log : LogOk c s
  pcs : ∀ p, PcOk c s p (s.pc p)

end Xv6.Bio.Journal
