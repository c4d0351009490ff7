import Xv6.Lib.TransSys
import Xv6.Sched.QueueInv
import Mathlib.Data.Fintype.Card

/-! # The run queues as five lists

`push_queue` and `pop_queue` against five lists of processes: the slots of a row below its size are
the list of its level. A pop shifts the row down until it meets an empty slot; a full row has none,
and the pop leaves a copy of its last entry behind, in the first slot beyond the list.
-/

namespace Xv6.Sched
set_option autoImplicit false
open Function (update update_self update_of_ne)

/-- Row `q` holds the list `l`. -/
structure Row (k : Queues) (q : ℕ) (l : List Slot) : Prop where
  size : k.size q = l.length
  back : k.back q = l.length
  slot : ∀ i, i < l.length → k.slot q i = l[i]?

section
variable {k : Queues} {q : ℕ} {l : List Slot} {m m' : Mem} {p : Slot}

theorem Row.rowOk (h : Row k q l) (hl : l.length ≤ NPROC) : RowOk k q := by
  refine ⟨h.back.trans h.size.symm, ?_, ?_⟩
  · rw [h.size]
    exact_mod_cast hl
  · intro i hi
    have hlt : i < l.length := by
      rw [h.size] at hi
      exact_mod_cast hi
    rw [h.slot i hlt, List.getElem?_eq_getElem hlt]
    simp

theorem Row.of_eq {k' : Queues} {r : ℕ} (h : Row k r l) (hsize : k'.size r = k.size r)
    (hback : k'.back r = k.back r) (hslot : k'.slot r = k.slot r) : Row k' r l := by
  refine ⟨hsize.trans h.size, hback.trans h.back, ?_⟩
  intro i hi
  rw [hslot]
  exact h.slot i hi

def SameRow (k k' : Queues) (r : ℕ) : Prop :=
  k'.size r = k.size r ∧ k'.back r = k.back r ∧ k'.slot r = k.slot r

theorem push_row (h : Row m.queue q l) (hq : q < NQUEUE) (hl : l.length < NPROC) :
    ∃ m', pushQueue p q m = .ok m' ∧ Row m'.queue q (l ++ [p]) ∧
      ∀ r, r ≠ q → SameRow m.queue m'.queue r := by
  have hback := h.back
  have hguard : q < NQUEUE ∧ 0 ≤ m.queue.back q ∧ m.queue.back q < NPROC := by
    refine ⟨hq, ?_, ?_⟩
    · omega
    · rw [hback]
      exact_mod_cast hl
  have htoNat : (m.queue.back q).toNat = l.length := by omega
  refine ⟨_, if_pos hguard, ⟨?_, ?_, ?_⟩, ?_⟩
  · simp [Queues.setRow, h.size]
  · simp [Queues.setRow, hback]
  · intro i hi
    rw [List.length_append, List.length_singleton] at hi
    simp only [Queues.setRow, update_self, htoNat]
    by_cases hlast : i = l.length
    · subst hlast
      simp
    · have hlt : i < l.length := by omega
      rw [update_of_ne hlast, h.slot i hlt, List.getElem?_append_left hlt]
  · intro r hr
    refine ⟨?_, ?_, ?_⟩ <;> simp [Queues.setRow, hr]

theorem pop_row (h : Row m.queue q (p :: l)) (hl : (p :: l).length ≤ NPROC) :
    ∃ m', popQueue q m = .ok (p, m') ∧ Row m'.queue q l ∧ (m'.proc p).inQueue = false ∧
      ∀ r, r ≠ q → SameRow m.queue m'.queue r := by
  have hok := h.rowOk hl
  have hhead : m.queue.slot q 0 = some p := h.slot 0 (by simp)
  have hsize := h.size
  have hback := h.back
  rw [List.length_cons] at hsize hback
  obtain ⟨m', hpop⟩ : ∃ m', popQueue q m = .ok (p, m') := by
    simp only [popQueue, hhead]
    exact ⟨_, rfl⟩
  refine ⟨m', hpop, ?_⟩
  simp only [popQueue, hhead] at hpop
  obtain rfl := (Prod.mk.inj (Outcome.ok.inj hpop)).2
  refine ⟨⟨?_, ?_, ?_⟩, ?_, ?_⟩
  · simp [Queues.setRow, hsize]
  · simp [Queues.setRow, hback]
  · intro i hi
    simp only [Queues.setRow, update_self]
    rw [popped_row hok (by rw [hsize]; push_cast; omega), h.slot (i + 1) (by simpa using hi),
      List.getElem?_cons_succ]
  · simp
  · intro r hr
    refine ⟨?_, ?_, ?_⟩ <;> simp [Queues.setRow, hr]

end

/-! ## Sequences of pushes and pops -/

structure Fifo where
  mem : Mem
  lists : ℕ → List Slot

namespace Fifo

inductive Event where
  | push (p : Slot) (q : ℕ)
  | pop (q : ℕ)

def step (s : Fifo) : Event → Outcome Failure Fifo
  | .push p q => do
    let m ← pushQueue p q s.mem
    return ⟨m, update s.lists q (s.lists q ++ [p])⟩
  | .pop q => do
    let (_, m) ← popQueue q s.mem
    return ⟨m, update s.lists q (s.lists q).tail⟩

def sys : TransSys Fifo Event where
  init := fun s => ∃ m, s = ⟨initializeQueue m, fun _ => []⟩
  step := fun s e s' => step s e = .ok s'

/-- No process is pushed while it is queued, and no empty queue is popped. -/
def Allowed (s : Fifo) : Event → Prop
  | .push p q => q < NQUEUE ∧ ∀ r < NQUEUE, p ∉ s.lists r
  | .pop q => q < NQUEUE ∧ s.lists q ≠ []

structure Inv (s : Fifo) : Prop where
  row : ∀ q < NQUEUE, Row s.mem.queue q (s.lists q)
  nodup : ∀ q < NQUEUE, (s.lists q).Nodup
  disjoint : ∀ q < NQUEUE, ∀ r < NQUEUE, ∀ p ∈ s.lists q, p ∈ s.lists r → q = r

variable {s : Fifo} {q : ℕ} {p : Slot}

theorem Inv.length_le (h : Inv s) (hq : q < NQUEUE) : (s.lists q).length ≤ NPROC := by
  have hcard := List.Nodup.length_le_card (h.nodup q hq)
  rwa [Fintype.card_fin] at hcard

theorem Inv.length_lt (h : Inv s) (hq : q < NQUEUE) (hp : p ∉ s.lists q) :
    (s.lists q).length < NPROC := by
  have hnodup : (p :: s.lists q).Nodup := List.nodup_cons.mpr ⟨hp, h.nodup q hq⟩
  have hcard := List.Nodup.length_le_card hnodup
  rwa [Fintype.card_fin, List.length_cons] at hcard

theorem inv_init (m : Mem) : Inv ⟨initializeQueue m, fun _ => []⟩ := by
  refine ⟨?_, ?_, ?_⟩
  · intro q _
    exact ⟨rfl, rfl, fun i hi => absurd hi (Nat.not_lt_zero i)⟩
  · intro q _
    exact List.nodup_nil
  · intro q _ r _ p hp
    cases hp

theorem Inv.row_update (h : Inv s) {l : List Slot} {m : Mem} (hrow : Row m.queue q l)
    (hsame : ∀ r, r ≠ q → SameRow s.mem.queue m.queue r) :
    ∀ r < NQUEUE, Row m.queue r (update s.lists q l r) := by
  intro r hr
  by_cases hrq : r = q
  · subst hrq
    rw [update_self]
    exact hrow
  · obtain ⟨hsize, hback, hslot⟩ := hsame r hrq
    rw [update_of_ne hrq]
    exact (h.row r hr).of_eq hsize hback hslot

theorem Inv.push (h : Inv s) (ha : Allowed s (.push p q)) :
    ∃ m, pushQueue p q s.mem = .ok m ∧ Inv ⟨m, update s.lists q (s.lists q ++ [p])⟩ ∧
      ∀ r, r ≠ q → SameRow s.mem.queue m.queue r := by
  obtain ⟨hq, hp⟩ := ha
  obtain ⟨m, hpush, hrow, hsame⟩ :=
    push_row (p := p) (h.row q hq) hq (h.length_lt hq (hp q hq))
  have hmem : ∀ r < NQUEUE, ∀ x, x ∈ update s.lists q (s.lists q ++ [p]) r →
      x ∈ s.lists r ∨ (x = p ∧ r = q) := by
    intro r _ x hx
    by_cases hrq : r = q
    · subst hrq
      rw [update_self, List.mem_append, List.mem_singleton] at hx
      exact hx.imp_right fun hxp => ⟨hxp, rfl⟩
    · rw [update_of_ne hrq] at hx
      exact .inl hx
  refine ⟨m, hpush, ⟨h.row_update hrow hsame, ?_, ?_⟩, hsame⟩
  · intro r hr
    by_cases hrq : r = q
    · subst hrq
      dsimp only
      rw [update_self, List.nodup_append]
      refine ⟨h.nodup r hr, List.nodup_singleton p, ?_⟩
      rintro x hx y hy rfl
      rw [List.mem_singleton.mp hy] at hx
      exact hp r hr hx
    · dsimp only
      rw [update_of_ne hrq]
      exact h.nodup r hr
  · intro r hr r' hr' x hx hx'
    rcases hmem r hr x hx with hold | ⟨rfl, rfl⟩
    · rcases hmem r' hr' x hx' with hold' | ⟨rfl, -⟩
      · exact h.disjoint r hr r' hr' x hold hold'
      · exact absurd hold (hp r hr)
    · rcases hmem r' hr' x hx' with hold' | ⟨-, rfl⟩
      · exact absurd hold' (hp r' hr')
      · rfl

theorem Inv.pop (h : Inv s) {l : List Slot} (hq : q < NQUEUE) (hl : s.lists q = p :: l) :
    ∃ m, popQueue q s.mem = .ok (p, m) ∧ Inv ⟨m, update s.lists q l⟩ ∧
      (m.proc p).inQueue = false ∧ ∀ r, r ≠ q → SameRow s.mem.queue m.queue r := by
  have hrow := h.row q hq
  have hlen := h.length_le hq
  have hnodup := h.nodup q hq
  rw [hl] at hrow hlen hnodup
  obtain ⟨m, hpop, hrow', hflag, hsame⟩ := pop_row hrow hlen
  have hsub : ∀ r x, x ∈ update s.lists q l r → x ∈ s.lists r := by
    intro r x hx
    by_cases hrq : r = q
    · subst hrq
      rw [update_self] at hx
      rw [hl]
      exact List.mem_cons_of_mem p hx
    · rwa [update_of_ne hrq] at hx
  refine ⟨m, hpop, ⟨h.row_update hrow' hsame, ?_, ?_⟩, hflag, hsame⟩
  · intro r hr
    by_cases hrq : r = q
    · subst hrq
      dsimp only
      rw [update_self]
      exact (List.nodup_cons.mp hnodup).2
    · dsimp only
      rw [update_of_ne hrq]
      exact h.nodup r hr
  · intro r hr r' hr' x hx hx'
    exact h.disjoint r hr r' hr' x (hsub r x hx) (hsub r' x hx')

theorem Inv.step {e : Event} {s' : Fifo} (h : Inv s) (ha : Allowed s e) (hs : step s e = .ok s') :
    Inv s' := by
  cases e with
  | push p q =>
    obtain ⟨m, hpush, hinv, -⟩ := h.push ha
    rw [Fifo.step, hpush] at hs
    cases hs
    exact hinv
  | pop q =>
    obtain ⟨hq, hne⟩ := ha
    obtain ⟨p, l, hl⟩ := List.exists_cons_of_ne_nil hne
    obtain ⟨m, hpop, hinv, -⟩ := h.pop hq hl
    rw [Fifo.step, hpop, hl] at hs
    cases hs
    exact hinv

theorem inv_of_reachable (hs : (sys.restrict Allowed).Reachable s) : Inv s := by
  refine hs.invariant ?_ ?_
  · rintro s ⟨m, rfl⟩
    exact inv_init m
  · intro s e s' h hstep
    exact h.step hstep.1 hstep.2

/-- In every sequence of pushes and pops each level holds its list, every push finds room, and every
pop returns the oldest entry of its level. -/
theorem queues_are_lists (hs : (sys.restrict Allowed).Reachable s) :
    (∀ q < NQUEUE, s.mem.queue.size q = (s.lists q).length ∧
      ∀ i < (s.lists q).length, s.mem.queue.slot q i = (s.lists q)[i]?) ∧
    (∀ p q, Allowed s (.push p q) → ∃ m, step s (.push p q) =
        .ok ⟨m, update s.lists q (s.lists q ++ [p])⟩ ∧
      ∀ r, r ≠ q → SameRow s.mem.queue m.queue r) ∧
    ∀ q, Allowed s (.pop q) → ∃ p l m, s.lists q = p :: l ∧ popQueue q s.mem = .ok (p, m) ∧
      step s (.pop q) = .ok ⟨m, update s.lists q l⟩ ∧ (m.proc p).inQueue = false ∧
      ∀ r, r ≠ q → SameRow s.mem.queue m.queue r := by
  have h := inv_of_reachable hs
  refine ⟨?_, ?_, ?_⟩
  · intro q hq
    exact ⟨(h.row q hq).size, (h.row q hq).slot⟩
  · intro p q ha
    obtain ⟨m, hpush, -, hsame⟩ := h.push ha
    refine ⟨m, ?_, hsame⟩
    rw [Fifo.step, hpush]
    rfl
  · rintro q ⟨hq, hne⟩
    obtain ⟨p, l, hl⟩ := List.exists_cons_of_ne_nil hne
    obtain ⟨m, hpop, -, hflag, hsame⟩ := h.pop hq hl
    refine ⟨p, l, m, hl, hpop, ?_, hflag, hsame⟩
    rw [Fifo.step, hpop, hl]
    rfl

instance (s : Fifo) : DecidablePred (Allowed s)
  | .push p q => inferInstanceAs (Decidable (q < NQUEUE ∧ ∀ r < NQUEUE, p ∉ s.lists r))
  | .pop q => inferInstanceAs (Decidable (q < NQUEUE ∧ s.lists q ≠ []))

def fillAndPop : List Event := (List.finRange NPROC).map (.push · 2) ++ [.pop 2]

theorem queues_are_lists_fillAndPop : ∃ s : Fifo, (sys.restrict Allowed).Reachable s ∧
    (s.mem.queue.slot 2 62, s.mem.queue.slot 2 63) = (some ⟨63, by decide⟩, some ⟨63, by decide⟩) ∧
    s.mem.queue.size 2 = (s.lists 2).length ∧ (s.lists 2).length = 63 := by
  have hrun : (TransSys.exec (fun s e => if Allowed s e then (step s e).result else none)
      ⟨initializeQueue ⟨fun _ => .zero, 0, 0, ⟨fun _ _ => none, fun _ => 0, fun _ => 0⟩⟩,
        fun _ => []⟩
      fillAndPop).map (fun s => ((s.mem.queue.slot 2 62, s.mem.queue.slot 2 63),
        (s.lists 2).length)) =
      some ((some ⟨63, by decide⟩, some ⟨63, by decide⟩), 63) := by decide +kernel
  obtain ⟨s, hs, h⟩ := Option.map_eq_some_iff.mp hrun
  obtain ⟨hslot, hlen⟩ := Prod.mk.inj h
  have hreach : (sys.restrict Allowed).Reachable s :=
    .of_exec (fun _ _ _ => Outcome.result_eq_some.mp) ⟨_, rfl⟩ hs
  exact ⟨s, hreach, hslot, ((queues_are_lists hreach).1 2 (by decide)).1, hlen⟩

end Fifo

end Xv6.Sched
