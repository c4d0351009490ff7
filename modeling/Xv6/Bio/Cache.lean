import Xv6.Lib.CircList
import Xv6.Lib.CountOf
import Xv6.Lib.Outcome
import Xv6.Param

/-! # The buffer cache

`bcache` of `kernel/bio.c` and what its functions do under `bcache.lock`: the scans of `bget`, the
end of `brelse`, `bpin` and `bunpin`, and `binit`. The sleep locks of the buffers and the disk are
left to the machines that use the cache.
-/

namespace Xv6.Bio
set_option autoImplicit false
open Function (update update_self update_of_ne update_eq_self update_idem)

abbrev BufId := Fin NBUF

/-- `struct buf` without its lock and its links. `refcnt` is a `uint`; it counts without wrapping
here, so that a value below zero is an underflow. In a run it stays in the range of a `uint`
(`Journal.refcnt_lt`). -/
structure Buf where
  valid : Bool
  dev : ℕ
  blockno : ℕ
  refcnt : ℤ
  data : Block

structure Buf.Same (x y : Buf) : Prop where
  dev : x.dev = y.dev
  blockno : x.blockno = y.blockno
  valid : x.valid = y.valid
  data : x.data = y.data

theorem Buf.Same.refl (x : Buf) : x.Same x := ⟨rfl, rfl, rfl, rfl⟩

structure Cache where
  links : Links BufId
  buf : BufId → Buf

namespace Cache

def set (c : Cache) (b : BufId) (x : Buf) : Cache := { c with buf := update c.buf b x }

@[simp] theorem set_buf_self (c : Cache) (b : BufId) (x : Buf) : (c.set b x).buf b = x :=
  update_self _ _ _

theorem set_buf_of_ne (c : Cache) {b b' : BufId} (x : Buf) (h : b' ≠ b) :
    (c.set b x).buf b' = c.buf b' := update_of_ne h _ _

theorem set_buf_field {α : Type*} (f : Buf → α) {c : Cache} {b : BufId} {x : Buf}
    (h : f x = f (c.buf b)) (a : BufId) : f ((c.set b x).buf a) = f (c.buf a) := by
  by_cases ha : a = b
  · rw [ha, set_buf_self, h]
  · rw [set_buf_of_ne c x ha]

def binit (k : Links BufId) (zero : Block) : Cache where
  links := (List.finRange NBUF).foldl Links.pushFront k.clear
  buf := fun _ => { valid := false, dev := 0, blockno := 0, refcnt := 0, data := zero }

/-- The part of `bget` under `bcache.lock`. A scan that does not end is `blocked`. -/
def bget (c : Cache) (dev blockno : ℕ) : Outcome Failure (BufId × Cache) :=
  match Links.scan c.links.next
      (fun b => (c.buf b).dev = dev ∧ (c.buf b).blockno = blockno) (NBUF + 1)
        (c.links.next none) with
  | none => .blocked
  | some (some b) => .ok (b, c.set b { c.buf b with refcnt := (c.buf b).refcnt + 1 })
  | some none =>
    match Links.scan c.links.prev (fun b => (c.buf b).refcnt = 0) (NBUF + 1)
      (c.links.prev none) with
    | none => .blocked
    | some (some b) =>
      .ok (b, c.set b
        { c.buf b with dev := dev, blockno := blockno, valid := false, refcnt := 1 })
    | some none => .fail (.panic "bget: no buffers")

def fill (c : Cache) (disk : ℕ → ℕ → Block) (b : BufId) : Cache :=
  let x := c.buf b
  if x.valid then c else c.set b { x with data := disk x.dev x.blockno, valid := true }

section
variable (c : Cache) (disk : ℕ → ℕ → Block)
include c disk

theorem fill_links (b : BufId) : (c.fill disk b).links = c.links := by
  unfold fill
  dsimp only
  split_ifs <;> rfl

theorem fill_buf (b a : BufId) : ((c.fill disk b).buf a).dev = (c.buf a).dev ∧
      ((c.fill disk b).buf a).blockno = (c.buf a).blockno ∧
      ((c.fill disk b).buf a).refcnt = (c.buf a).refcnt := by
  unfold fill
  dsimp only
  split_ifs
  · exact ⟨rfl, rfl, rfl⟩
  · exact ⟨set_buf_field Buf.dev (by rfl) a, set_buf_field Buf.blockno (by rfl) a,
      set_buf_field Buf.refcnt (by rfl) a⟩

theorem fill_same_of_ne {b a : BufId} (ha : a ≠ b) : ((c.fill disk b).buf a).Same (c.buf a) := by
  unfold fill
  dsimp only
  split_ifs
  · exact .refl _
  · rw [set_buf_of_ne c _ ha]
    exact .refl _

theorem fill_self (b : BufId) :
    ((c.fill disk b).buf b).valid = true ∧ ((c.fill disk b).buf b).data =
      if (c.buf b).valid then (c.buf b).data else disk (c.buf b).dev (c.buf b).blockno := by
  unfold fill
  dsimp only
  split_ifs with hv
  · exact ⟨hv, rfl⟩
  · rw [set_buf_self]
    exact ⟨rfl, rfl⟩

end

def setData (c : Cache) (b : BufId) (data : Block) : Cache := c.set b { c.buf b with data := data }

theorem setData_buf (c : Cache) (b : BufId) (data : Block) (a : BufId) :
    ((c.setData b data).buf a).dev = (c.buf a).dev ∧
      ((c.setData b data).buf a).blockno = (c.buf a).blockno ∧
      ((c.setData b data).buf a).valid = (c.buf a).valid :=
  ⟨set_buf_field Buf.dev (by rfl) a, set_buf_field Buf.blockno (by rfl) a,
    set_buf_field Buf.valid (by rfl) a⟩

theorem setData_self (c : Cache) (b : BufId) (data : Block) :
    ((c.setData b data).buf b).data = data := by
  rw [setData, set_buf_self]

theorem setData_of_ne (c : Cache) {b a : BufId} (data : Block) (ha : a ≠ b) :
    ((c.setData b data).buf a).data = (c.buf a).data := by
  rw [setData, set_buf_of_ne c _ ha]

def brelse (c : Cache) (b : BufId) : Cache :=
  let c := c.set b { c.buf b with refcnt := (c.buf b).refcnt - 1 }
  if (c.buf b).refcnt = 0 then { c with links := (c.links.unlink b).pushFront b } else c

def bpin (c : Cache) (b : BufId) : Cache := c.set b { c.buf b with refcnt := (c.buf b).refcnt + 1 }

def bunpin (c : Cache) (b : BufId) : Cache :=
  c.set b { c.buf b with refcnt := (c.buf b).refcnt - 1 }

theorem bpin_same (c : Cache) (b a : BufId) : ((c.bpin b).buf a).Same (c.buf a) :=
  ⟨set_buf_field Buf.dev (by rfl) a, set_buf_field Buf.blockno (by rfl) a,
    set_buf_field Buf.valid (by rfl) a, set_buf_field Buf.data (by rfl) a⟩

theorem bunpin_same (c : Cache) (b a : BufId) : ((c.bunpin b).buf a).Same (c.buf a) :=
  ⟨set_buf_field Buf.dev (by rfl) a, set_buf_field Buf.blockno (by rfl) a,
    set_buf_field Buf.valid (by rfl) a, set_buf_field Buf.data (by rfl) a⟩

theorem brelse_buf (c : Cache) (b : BufId) : (c.brelse b).buf = (c.bunpin b).buf := by
  unfold brelse
  dsimp only
  split_ifs <;> rfl

theorem brelse_same (c : Cache) (b a : BufId) : ((c.brelse b).buf a).Same (c.buf a) := by
  rw [brelse_buf]
  exact c.bunpin_same b a

/-! ## The invariant -/

def Holds (c : Cache) (b : BufId) (dev blockno : ℕ) : Prop :=
  (c.buf b).dev = dev ∧ (c.buf b).blockno = blockno

/-- The links hold every buffer once, in the order `l`, no two buffers are for one block, and every
buffer has the references `owed` to it. -/
structure Ok (c : Cache) (l : List BufId) (owed : BufId → ℕ) : Prop where
  circular : c.links.Circular l
  complete : ∀ b, b ∈ l
  unique : ∀ b b', (c.buf b).dev ≠ 0 → (c.buf b').dev = (c.buf b).dev →
    (c.buf b').blockno = (c.buf b).blockno → b' = b
  refcnt : ∀ b, (c.buf b).refcnt = owed b

theorem ok_binit (k : Links BufId) (zero : Block) :
    (binit k zero).Ok (List.finRange NBUF).reverse fun _ => 0 := by
  refine ⟨?_, ?_, ?_, fun _ => rfl⟩
  · have hnodup : ((List.finRange NBUF).reverse ++ []).Nodup := by
      rw [List.append_nil, List.nodup_reverse]
      exact List.nodup_finRange NBUF
    have h := Links.circular_foldl_pushFront (List.finRange NBUF) (Links.circular_clear (k := k))
      hnodup
    rwa [List.append_nil] at h
  · intro b
    rw [List.mem_reverse]
    exact List.mem_finRange b
  · intro b b' h
    exact absurd rfl h

namespace Ok
variable {c c' : Cache} {l : List BufId} {owed : BufId → ℕ} {b : BufId}

section
variable (h : c.Ok l owed)
include h

theorem length : l.length < NBUF + 1 := by
  have := List.Nodup.length_le_card h.circular.2
  rw [Fintype.card_fin] at this
  omega

theorem set {x : Buf} {n : ℕ} (hdev : x.dev = (c.buf b).dev)
    (hblockno : x.blockno = (c.buf b).blockno) (hrefcnt : x.refcnt = n) :
    (c.set b x).Ok l (update owed b n) := by
  have hdev' := set_buf_field Buf.dev hdev
  have hblockno' := set_buf_field Buf.blockno hblockno
  refine ⟨h.circular, h.complete, ?_, ?_⟩
  · intro b1 b2
    rw [hdev', hdev', hblockno', hblockno']
    exact h.unique b1 b2
  · intro b'
    by_cases hb : b' = b
    · rw [hb, set_buf_self, update_self, hrefcnt]
    · rw [set_buf_of_ne c x hb, update_of_ne hb]
      exact h.refcnt b'

theorem fill (disk : ℕ → ℕ → Block) (b : BufId) : (c.fill disk b).Ok l owed := by
  refine ⟨?_, h.complete, ?_, ?_⟩
  · rw [fill_links]
    exact h.circular
  · intro b1 b2
    rw [(fill_buf c disk b b1).1, (fill_buf c disk b b2).1, (fill_buf c disk b b1).2.1,
      (fill_buf c disk b b2).2.1]
    exact h.unique b1 b2
  · intro b'
    rw [(fill_buf c disk b b').2.2]
    exact h.refcnt b'

theorem setData (b : BufId) (data : Block) : (c.setData b data).Ok l owed := by
  have hset := h.set (x := { c.buf b with data := data }) rfl rfl (h.refcnt b)
  rwa [update_eq_self] at hset

theorem bpin (b : BufId) : (c.bpin b).Ok l (update owed b (owed b + 1)) := by
  refine Ok.set h rfl rfl ?_
  rw [h.refcnt b]
  rfl

theorem bunpin (hb : 0 < owed b) : (c.bunpin b).Ok l (update owed b (owed b - 1)) := by
  refine Ok.set h rfl rfl ?_
  show (c.buf b).refcnt - 1 = _
  rw [h.refcnt b]
  omega

theorem brelse (hb : 0 < owed b) : (c.brelse b).Ok (if owed b = 1 then b :: l.erase b else l)
      (update owed b (owed b - 1)) := by
  have hset := h.bunpin hb
  have hzero : ((c.bunpin b).buf b).refcnt = 0 ↔ owed b = 1 := by
    rw [hset.refcnt b, update_self]
    omega
  show (if ((c.bunpin b).buf b).refcnt = 0 then
    { c.bunpin b with links := ((c.bunpin b).links.unlink b).pushFront b } else c.bunpin b).Ok _ _
  by_cases hone : owed b = 1
  · rw [if_pos (hzero.mpr hone), if_pos hone]
    refine ⟨hset.circular.moveFront (h.complete b), ?_, hset.unique, hset.refcnt⟩
    intro b'
    by_cases hbb : b' = b
    · rw [hbb]
      exact List.mem_cons_self
    · exact List.mem_cons_of_mem b ((List.mem_erase_of_ne hbb).mpr (h.complete b'))
  · rw [if_neg (mt hzero.mp hone), if_neg hone]
    exact hset

end

end Ok

/-! ## The result of `bget` -/

structure Hit (c : Cache) (dev blockno : ℕ) (b : BufId) (c' : Cache) : Prop where
  holds : c.Holds b dev blockno
  eq : c' = c.bpin b

structure Miss (c : Cache) (l : List BufId) (dev blockno : ℕ) (b : BufId) (c' : Cache) : Prop where
  absent : ∀ b', ¬ c.Holds b' dev blockno
  last : l.reverse.find? (fun b => (c.buf b).refcnt = 0) = some b
  eq : c' = c.set b { c.buf b with dev := dev, blockno := blockno, valid := false, refcnt := 1 }

namespace Ok
variable {c c' : Cache} {l : List BufId} {owed : BufId → ℕ} {dev blockno : ℕ} {b : BufId}

theorem bget_cases (h : c.Ok l owed) (hget : c.bget dev blockno = .ok (b, c')) :
    c.Hit dev blockno b c' ∨ c.Miss l dev blockno b c' := by
  unfold Cache.bget at hget
  rw [h.circular.scan_next _ h.length, h.circular.scan_prev _ h.length] at hget
  cases hhit : l.find? fun b => (c.buf b).dev = dev ∧ (c.buf b).blockno = blockno with
  | some b1 =>
    rw [hhit] at hget
    simp only [Outcome.ok.injEq, Prod.mk.injEq] at hget
    obtain ⟨rfl, rfl⟩ := hget
    exact .inl ⟨by simpa [Holds] using List.find?_some hhit, rfl⟩
  | none =>
    rw [hhit] at hget
    cases hmiss : l.reverse.find? fun b => (c.buf b).refcnt = 0 with
    | none =>
      rw [hmiss] at hget
      cases hget
    | some b1 =>
      rw [hmiss] at hget
      simp only [Outcome.ok.injEq, Prod.mk.injEq] at hget
      obtain ⟨rfl, rfl⟩ := hget
      refine .inr ⟨?_, hmiss, rfl⟩
      intro b' hb'
      have := List.find?_eq_none.mp hhit b' (h.complete b')
      simp [hb'.1, hb'.2] at this

theorem unused_of_miss (h : c.Ok l owed) (hm : c.Miss l dev blockno b c') : owed b = 0 := by
  have hzero : (c.buf b).refcnt = 0 := by simpa using List.find?_some hm.last
  rw [h.refcnt b] at hzero
  exact_mod_cast hzero

theorem bget (h : c.Ok l owed) (hget : c.bget dev blockno = .ok (b, c')) :
    c'.Ok l (update owed b (owed b + 1)) ∧ c'.Holds b dev blockno := by
  rcases h.bget_cases hget with ⟨hholds, rfl⟩ | hm
  · refine ⟨h.bpin b, ?_⟩
    rw [Holds, Cache.bpin, set_buf_self]
    exact hholds
  · have hb := h.unused_of_miss hm
    obtain ⟨habsent, -, rfl⟩ := hm
    refine ⟨⟨h.circular, h.complete, ?_, ?_⟩, ?_⟩
    · intro b1 b2 hdev
      by_cases h1 : b1 = b <;> by_cases h2 : b2 = b
      · intro _ _
        rw [h1, h2]
      · subst h1
        rw [set_buf_self, set_buf_of_ne c _ h2]
        intro hd hn
        exact absurd ⟨hd, hn⟩ (habsent b2)
      · subst h2
        rw [set_buf_self, set_buf_of_ne c _ h1]
        intro hd hn
        exact absurd ⟨hd.symm, hn.symm⟩ (habsent b1)
      · rw [set_buf_of_ne c _ h1] at hdev ⊢
        rw [set_buf_of_ne c _ h2]
        exact h.unique b1 b2 hdev
    · intro b'
      by_cases hbb : b' = b
      · rw [hbb, set_buf_self, update_self, hb]
        rfl
      · rw [set_buf_of_ne c _ hbb, update_of_ne hbb]
        exact h.refcnt b'
    · rw [Holds, set_buf_self]
      exact ⟨rfl, rfl⟩

theorem bget_frame (h : c.Ok l owed) (hget : c.bget dev blockno = .ok (b, c')) {b' : BufId}
    (hb' : b' ≠ b ∨ 0 < owed b') : (c'.buf b').Same (c.buf b') := by
  rcases h.bget_cases hget with ⟨-, rfl⟩ | hm
  · exact c.bpin_same b b'
  · have hbb : b' ≠ b := by
      have := h.unused_of_miss hm
      rintro rfl
      rcases hb' with hne | hpos
      · exact hne rfl
      · omega
    obtain ⟨-, -, rfl⟩ := hm
    rw [set_buf_of_ne c _ hbb]
    exact .refl _

end Ok
end Cache

/-! ## References -/

/-- The references to a buffer: the calls in progress that have one, the holder of the sleep lock,
and the pins. -/
def owed (ref : Proc → Option BufId) (lock : BufId → Option Proc) (pins : BufId → ℕ)
    (b : BufId) : ℕ :=
  countOf ref b + (if lock b = none then 0 else 1) + pins b

section Owed
variable {ref : Proc → Option BufId} {lock : BufId → Option Proc} (pins : BufId → ℕ) {p : Proc}
  {b : BufId}

theorem owed_get (lock : BufId → Option Proc) (hp : ref p = none) :
    owed (update ref p (some b)) lock pins =
      update (owed ref lock pins) b (owed ref lock pins b + 1) := by
  funext a
  have hcount := countOf_update ref p (some b) a
  rw [hp] at hcount
  by_cases ha : a = b
  · subst ha
    rw [update_self]
    simp only [owed, reduceCtorEq, if_false, if_true] at hcount ⊢
    omega
  · rw [update_of_ne ha]
    simp only [owed, reduceCtorEq, if_false, Option.some.injEq, Ne.symm ha] at hcount ⊢
    omega

theorem owed_drop (lock : BufId → Option Proc) (hp : ref p = some b) :
    0 < owed ref lock pins b ∧ owed (update ref p none) lock pins =
      update (owed ref lock pins) b (owed ref lock pins b - 1) := by
  have hpos := countOf_pos hp
  refine ⟨by unfold owed; omega, ?_⟩
  funext a
  have hcount := countOf_update ref p none a
  rw [hp] at hcount
  by_cases ha : a = b
  · subst ha
    rw [update_self]
    simp only [owed, reduceCtorEq, if_false, if_true] at hcount ⊢
    omega
  · rw [update_of_ne ha]
    simp only [owed, reduceCtorEq, if_false, Option.some.injEq, Ne.symm ha] at hcount ⊢
    omega

theorem owed_lock (hp : ref p = some b) (hfree : lock b = none) :
    owed (update ref p none) (update lock b (some p)) pins =
      owed ref lock pins := by
  obtain ⟨hpos, hdrop⟩ := owed_drop pins lock hp
  funext a
  have ha := congrFun hdrop a
  by_cases hab : a = b
  · subst hab
    rw [update_self] at ha
    unfold owed at hpos ha ⊢
    rw [if_pos hfree] at hpos ha ⊢
    rw [if_neg (by simp)]
    omega
  · rw [update_of_ne hab] at ha
    unfold owed at ha ⊢
    rw [update_of_ne hab]
    exact ha

theorem owed_unlock (hp : ref p = none) (hheld : lock b = some p) :
    owed (update ref p (some b)) (update lock b none) pins =
      owed ref lock pins := by
  have hlock : update (update lock b none) b (some p) = lock := by
    rw [update_idem, ← hheld, update_eq_self]
  have href : update (update ref p (some b)) p none = ref := by
    rw [update_idem, ← hp, update_eq_self]
  have h : owed (update (update ref p (some b)) p none)
      (update (update lock b none) b (some p)) pins =
      owed (update ref p (some b)) (update lock b none) pins :=
    owed_lock pins (update_self _ _ _) (update_self _ _ _)
  rw [hlock, href] at h
  exact h.symm

theorem owed_pins {n m : ℕ} (h : owed ref lock pins b + n = m + pins b) :
    owed ref lock (update pins b n) = update (owed ref lock pins) b m := by
  funext a
  by_cases ha : a = b
  · subst ha
    unfold owed at h ⊢
    rw [update_self, update_self]
    omega
  · simp only [owed, update_of_ne ha]

end Owed

end Xv6.Bio
