import Mathlib.Data.Fin.VecNotation
import Xv6.Console.Ops

/-! # The console is a line editor

The buffer holds the characters that the reference editor has committed and nobody has read, and
after them the line it is editing. So the indices stay in order across any number of wraps, and the
bytes the readers get are those the editor commits, in order; an end of file is taken out by a read
that has got nothing, and left in place by any other.
-/

namespace Xv6.Console
set_option autoImplicit false
open Function (update update_self update_of_ne update_eq_self update_idem)
open RingBuf (cell)

/-! ## The buffer -/

def ring (k : Cons) : RingBuf 32 INPUT_BUF_SIZE UInt8 := ⟨k.buf, k.r, k.e⟩

structure Holds (k : Cons) (u l : List UInt8) : Prop where
  contents : (ring k).contents = u ++ l
  room : u.length + l.length ≤ INPUT_BUF_SIZE
  w : k.w = k.r + BitVec.ofNat 32 u.length

theorem add_ofNat_eq_self {x : BitVec 32} {n : ℕ} (hn : n ≤ INPUT_BUF_SIZE) :
    x + BitVec.ofNat 32 n = x ↔ n = 0 := by
  unfold INPUT_BUF_SIZE at hn
  rw [← BitVec.toNat_inj, BitVec.toNat_add, BitVec.toNat_ofNat]
  omega

theorem toNat_add_ofNat_sub {x : BitVec 32} {n : ℕ} (hn : n ≤ INPUT_BUF_SIZE) :
    (x + BitVec.ofNat 32 n - x).toNat = n := by
  unfold INPUT_BUF_SIZE at hn
  rw [BitVec.add_comm, BitVec.add_sub_cancel, BitVec.toNat_ofNat, Nat.mod_eq_of_lt (by omega)]

namespace Holds
variable {k : Cons} {u l : List UInt8}

section
variable (h : Holds k u l)
include h

theorem used : (ring k).used = u.length + l.length := by
  rw [← RingBuf.length_contents, h.contents, List.length_append]

theorem e_eq : k.e = k.w + BitVec.ofNat 32 l.length := by
  have he := (ring k).next_eq
  rw [h.used, BitVec.ofNat_add, ← BitVec.add_assoc] at he
  rw [h.w]
  exact he

theorem e_eq_add : k.e = k.r + BitVec.ofNat 32 (u.length + l.length) := by
  rw [← h.used]
  exact (ring k).next_eq

theorem e_sub_r : (k.e - k.r).toNat = u.length + l.length := h.used

theorem e_sub_w : (k.e - k.w).toNat = l.length := by
  have hroom := h.room
  rw [h.e_eq]
  exact toNat_add_ofNat_sub (by omega)

theorem w_sub_r : (k.w - k.r).toNat = u.length := by
  have hroom := h.room
  rw [h.w]
  exact toNat_add_ofNat_sub (by omega)

theorem e_eq_w : k.e = k.w ↔ l = [] := by
  have hroom := h.room
  rw [h.e_eq, add_ofNat_eq_self (by omega), List.length_eq_zero_iff]

theorem r_eq_w : k.r = k.w ↔ u = [] := by
  have hroom := h.room
  rw [eq_comm, h.w, add_ofNat_eq_self (by omega), List.length_eq_zero_iff]

end

theorem erase {x : UInt8} (h : Holds k u (l ++ [x])) :
    k.buf (cell (k.e - 1)) = x ∧ Holds { k with e := k.e - 1 } u l := by
  have hlen := h.used
  have hroom := h.room
  simp only [List.length_append, List.length_singleton] at hlen hroom
  obtain ⟨hcontents, -⟩ := RingBuf.contents_unpush (r := ring k) (by omega)
  rw [h.contents, ← List.append_assoc] at hcontents
  obtain ⟨hrest, hlast⟩ := List.append_inj' hcontents rfl
  refine ⟨(List.cons.inj hlast).1.symm, hrest.symm, by omega, h.w⟩

theorem killLoop (h : Holds k u l) (hplain : newline ∉ l) :
    Holds (killLoop l.length k) u [] := by
  induction l using List.reverseRecOn generalizing k with
  | nil => exact h
  | append_singleton l x ih =>
    obtain ⟨hx, hrest⟩ := h.erase
    have hne : k.e ≠ k.w := by
      rw [Ne, h.e_eq_w]
      simp
    have hchar : k.buf (cell (k.e - 1)) ≠ newline := by
      rw [hx]
      rintro rfl
      exact hplain (List.mem_append_right _ (List.mem_singleton_self _))
    rw [List.length_append, List.length_singleton, Console.killLoop, if_pos ⟨hne, hchar⟩]
    exact ih hrest fun hmem => hplain (List.mem_append_left _ hmem)

theorem push (h : Holds k u l) (hlt : u.length + l.length < INPUT_BUF_SIZE) (c : UInt8) :
    Holds { k with buf := update k.buf (cell k.e) c, e := k.e + 1 } u (l ++ [c]) := by
  have hpush := RingBuf.contents_push (r := ring k) (by decide) (by decide) (by rwa [h.used]) c
  refine ⟨?_, ?_, h.w⟩
  · rw [h.contents, List.append_assoc] at hpush
    exact hpush
  · rw [List.length_append, List.length_singleton]
    omega

theorem commit (h : Holds k u l) : Holds { k with w := k.e } (u ++ l) [] := by
  refine ⟨by rw [List.append_nil]; exact h.contents, by simpa using h.room, ?_⟩
  rw [List.length_append]
  exact h.e_eq_add

theorem pop {x : UInt8} (h : Holds k (x :: u) l) :
    k.buf (cell k.r) = x ∧ Holds { k with r := k.r + 1 } u l := by
  have hused := h.used
  have hroom := h.room
  simp only [List.length_cons] at hused hroom
  obtain ⟨hcontents, -⟩ := RingBuf.contents_pop (r := ring k) (by omega)
  rw [h.contents] at hcontents
  obtain ⟨hx, hrest⟩ := List.cons.inj hcontents
  refine ⟨hx.symm, hrest.symm, by omega, ?_⟩
  have hw := h.w
  rw [List.length_cons, Nat.add_comm, BitVec.ofNat_add, ← BitVec.add_assoc] at hw
  exact hw

end Holds

variable {x : Place} {k : ℕ} {u : List UInt8} {c : UInt8} {v : Bool} {m t : ℤ}

/-- The handler does to the buffer what the editor does to its line; what the editor commits is
added to what the buffer holds for the readers. -/
theorem Holds.consoleintr {k : Cons} {ed : Editor} (h : Holds k u ed.line)
    (hplain : newline ∉ ed.line) (c : UInt8) : ∃ v, (ed.input u.length c).done = ed.done ++ v ∧
      Holds (consoleintr c k).1 (u ++ v) (ed.input u.length c).line ∧
      newline ∉ (ed.input u.length c).line := by
  have hsame : ∀ {ed' : Editor} {k' : Cons}, ed'.done = ed.done → Holds k' u ed'.line →
      newline ∉ ed'.line → ∃ v, ed'.done = ed.done ++ v ∧ Holds k' (u ++ v) ed'.line ∧
        newline ∉ ed'.line := by
    intro ed' k' hdone hk hp
    exact ⟨[], by rw [hdone, List.append_nil], by rwa [List.append_nil], hp⟩
  have hlt : k.e - k.r < BitVec.ofNat 32 INPUT_BUF_SIZE ↔
      u.length + ed.line.length < INPUT_BUF_SIZE := by
    rw [BitVec.lt_def, h.e_sub_r]
    rfl
  by_cases hP : c = C 'P'
  · rw [Console.consoleintr, if_pos hP, Editor.input, if_pos (.inl hP)]
    exact hsame rfl h hplain
  by_cases hU : c = C 'U'
  · have h0 : ¬ (c = C 'P' ∨ c = 0) := by
      rw [hU]
      decide
    rw [Console.consoleintr, if_neg hP, if_pos hU, Editor.input, if_neg h0, if_pos hU, h.e_sub_w]
    exact hsame rfl (h.killLoop hplain) (List.not_mem_nil)
  by_cases hH : c = C 'H' ∨ c = 0x7f
  · have h0 : ¬ (c = C 'P' ∨ c = 0) := by
      rcases hH with hH | hH <;> rw [hH] <;> decide
    rw [Console.consoleintr, if_neg hP, if_neg hU, if_pos hH, Editor.input, if_neg h0, if_neg hU,
      if_pos hH]
    rcases List.eq_nil_or_concat ed.line with hnil | ⟨l, x, hl⟩
    · rw [if_neg (not_not.mpr (h.e_eq_w.mpr hnil))]
      exact hsame rfl (by rw [hnil]; rwa [hnil] at h) (by simp [hnil])
    · have hne : k.e ≠ k.w := by
        rw [Ne, h.e_eq_w, hl]
        simp
      rw [hl, List.concat_eq_append] at h hplain
      rw [if_pos hne, hl, List.concat_eq_append, List.dropLast_concat]
      exact hsame rfl h.erase.2 fun hmem => hplain (List.mem_append_left _ hmem)
  by_cases h0 : c = 0
  · rw [Console.consoleintr, if_neg hP, if_neg hU, if_neg hH, if_neg fun hc => hc.1 h0,
      Editor.input, if_pos (.inr h0)]
    exact hsame rfl h hplain
  have hP0 : ¬ (c = C 'P' ∨ c = 0) := by
    rintro (hc | hc)
    · exact hP hc
    · exact h0 hc
  by_cases hroom : u.length + ed.line.length < INPUT_BUF_SIZE
  · rw [Console.consoleintr, if_neg hP, if_neg hU, if_neg hH, if_pos ⟨h0, hlt.mpr hroom⟩,
      Editor.input, if_neg hP0, if_neg hU, if_neg hH, if_pos hroom]
    generalize (if c = carriageReturn then newline else c) = x
    have hpush := h.push hroom x
    have hfull : k.e + 1 - k.r = BitVec.ofNat 32 INPUT_BUF_SIZE ↔
        u.length + (ed.line ++ [x]).length = INPUT_BUF_SIZE := by
      rw [← hpush.e_sub_r, ← BitVec.toNat_inj]
      rfl
    simp only [hfull]
    split
    · exact ⟨ed.line ++ [x], rfl, hpush.commit, List.not_mem_nil⟩
    · next hx =>
      refine hsame rfl hpush ?_
      rintro hmem
      rcases List.mem_append.mp hmem with hmem | hmem
      · exact hplain hmem
      · exact hx (.inl (List.mem_singleton.mp hmem).symm)
  · rw [Console.consoleintr, if_neg hP, if_neg hU, if_neg hH, if_neg fun hc => hroom (hlt.mp hc.2),
      Editor.input, if_neg hP0, if_neg hU, if_neg hH, if_neg hroom]
    exact hsame rfl h hplain

/-! ## The editor and the bytes read -/

section
variable {k k' : Cons} {tr tr' : Trace}

/-- The buffer agrees with the editor, and the readers have got what they have taken out, except
the ends of file. -/
structure Edits (k : Cons) (tr : Trace) : Prop where
  holds : Holds k tr.unread tr.editor.line
  plain : newline ∉ tr.editor.line
  le : tr.taken.length ≤ tr.editor.done.length
  taken : tr.taken.map Prod.snd = tr.editor.done.take tr.taken.length
  delivered : tr.delivered = (tr.taken.map Prod.snd).filter (· ≠ C 'D')

theorem Edits.init {n : ℕ} :
    Edits (Shared.init : Shared n).cons (Shared.init : Shared n).trace := by
  refine ⟨⟨?_, Nat.zero_le _, rfl⟩, List.not_mem_nil, le_rfl, rfl, rfl⟩
  exact List.length_eq_zero_iff.mp ((RingBuf.length_contents _).trans
    (RingBuf.used_eq_zero.mpr rfl))

theorem Edits.intr (h : Edits k tr) {c : UInt8}
    (hed : tr'.editor = tr.editor.input tr.unread.length c)
    (htaken : tr'.taken = tr.taken) (hdel : tr'.delivered = tr.delivered) :
    Edits (consoleintr c k).1 tr' := by
  obtain ⟨v, hdone, hholds, hplain⟩ := h.holds.consoleintr h.plain c
  rw [← hed] at hdone hholds hplain
  have hunread : tr'.unread = tr.unread ++ v := by
    rw [Trace.unread, hdone, htaken, List.drop_append_of_le_length h.le]
    rfl
  refine ⟨by rwa [hunread], hplain, ?_, ?_, ?_⟩
  · rw [htaken, hdone, List.length_append]
    exact h.le.trans (Nat.le_add_right _ _)
  · rw [htaken, hdone, List.take_append_of_le_length h.le]
    exact h.taken
  · rw [hdel, htaken]
    exact h.delivered

theorem Edits.take (h : Edits k tr) {c : UInt8} {u : List UInt8} (hu : tr.unread = c :: u) {j : ℕ}
    (hed : tr'.editor = tr.editor) (htaken : tr'.taken = tr.taken ++ [(j, c)])
    (hdel : tr'.delivered = tr.delivered ++ if c = C 'D' then [] else [c]) :
    Edits { k with r := k.r + 1 } tr' := by
  have hholds := h.holds
  rw [hu] at hholds
  have hlt : tr.taken.length < tr.editor.done.length := by
    by_contra hge
    rw [Trace.unread, List.drop_eq_nil_of_le (by omega)] at hu
    cases hu
  have hcons := List.drop_eq_getElem_cons hlt
  rw [← Trace.unread, hu] at hcons
  obtain ⟨hc, hrest⟩ := List.cons.inj hcons
  have hlen : tr'.taken.length = tr.taken.length + 1 := by
    rw [htaken, List.length_append, List.length_singleton]
  have hunread : tr'.unread = u := by
    rw [Trace.unread, hed, hlen, hrest]
  refine ⟨?_, ?_, ?_, ?_, ?_⟩
  · rw [hunread, hed]
    exact hholds.pop.2
  · rw [hed]
    exact h.plain
  · rw [hlen, hed]
    exact hlt
  · rw [hlen, hed, htaken, List.map_append, h.taken, List.take_add_one,
      List.getElem?_eq_getElem hlt, ← hc]
    rfl
  · rw [hdel, htaken, List.map_append, List.filter_append, ← h.delivered]
    by_cases hD : c = C 'D' <;> simp [hD]

end

/-! ## The reads -/

def Trace.bytesOf (tr : Trace) (k : ℕ) : List UInt8 :=
  (tr.taken.filter fun x => x.1 = k).map Prod.snd

theorem bytesOf_append {tr tr' : Trace} (h : tr'.taken = tr.taken ++ [(k, c)]) (j : ℕ) :
    tr'.bytesOf j = if j = k then tr.bytesOf j ++ [c] else tr.bytesOf j := by
  rw [Trace.bytesOf, h, List.filter_append, List.map_append]
  by_cases hj : j = k
  · simp [hj, Trace.bytesOf]
  · simp [hj, Ne.symm hj, Trace.bytesOf]

/-- What a read may return: it has been killed, or the number of its bytes, or 0 for an end of file,
which it has taken out alone. -/
def Trace.Answer (tr : Trace) (k : ℕ) (v : ℤ) : Prop :=
  C 'D' ∉ tr.bytesOf k ∧ (v = -1 ∨ v = (tr.bytesOf k).length) ∨ tr.bytesOf k = [C 'D'] ∧ v = 0

def Place.call : Place → Option ℕ
  | read k _ _ _ => some k
  | _ => none

section
variable {n : ℕ} {tr tr' : Trace} {pl : Fin n → Place} {p : Fin n}

structure Reads (tr : Trace) (pl : Fin n → Place) : Prop where
  active : ∀ p k v t m, pl p = .read k v t m → v = true ∧ k < tr.calls ∧ m ≤ t ∧
    ((tr.bytesOf k).length : ℤ) = t - m ∧ C 'D' ∉ tr.bytesOf k
  distinct : ∀ p q k, (pl p).call = some k → (pl q).call = some k → p = q
  old : ∀ x ∈ tr.taken, x.1 < tr.calls
  answered : ∀ x ∈ tr.returned, x.1 < tr.calls ∧ (∀ p, (pl p).call ≠ some x.1) ∧ tr.Answer x.1 x.2

theorem Reads.bytesOf_calls (h : Reads tr pl) : tr.bytesOf tr.calls = [] := by
  rw [Trace.bytesOf, List.map_eq_nil_iff, List.filter_eq_nil_iff]
  intro x hx
  have hlt := h.old x hx
  simp only [decide_eq_true_eq]
  omega

theorem Reads.move (h : Reads tr pl) {x : Place} (hcalls : tr.calls ≤ tr'.calls)
    (hbytes : ∀ k, (pl p).call ≠ some k → tr'.bytesOf k = tr.bytesOf k)
    (hself : ∀ k v t m, x = .read k v t m → v = true ∧ k < tr'.calls ∧ m ≤ t ∧
      ((tr'.bytesOf k).length : ℤ) = t - m ∧ C 'D' ∉ tr'.bytesOf k)
    (hcall : ∀ k, x.call = some k → (pl p).call = some k ∨ tr.calls ≤ k)
    (hold : ∀ y ∈ tr'.taken, y.1 < tr'.calls)
    (hret : ∀ y ∈ tr'.returned, y ∈ tr.returned ∨
      (pl p).call = some y.1 ∧ x.call = none ∧ tr'.Answer y.1 y.2) :
    Reads tr' (update pl p x) := by
  have hactive : ∀ q k, (pl q).call = some k → k < tr.calls := by
    intro q k hq
    cases hpl : pl q with
    | read k' v t m =>
      rw [hpl] at hq
      cases hq
      exact (h.active q _ v t m hpl).2.1
    | _ => rw [hpl] at hq; cases hq
  have hne : ∀ q k, q ≠ p → (pl q).call = some k → (pl p).call ≠ some k := by
    intro q k hqp hq hpk
    exact hqp (h.distinct q p k hq hpk)
  have hxq : ∀ q k, q ≠ p → (pl q).call = some k → x.call ≠ some k := by
    intro q k hqp hq hxk
    rcases hcall k hxk with hpk | hge
    · exact hne q k hqp hq hpk
    · have hlt := hactive q k hq
      omega
  refine ⟨?_, ?_, hold, ?_⟩
  · intro q k v t m hq
    by_cases hqp : q = p
    · rw [hqp, update_self] at hq
      exact hself k v t m hq
    · rw [update_of_ne hqp] at hq
      obtain ⟨hv, hk, hm, hlen, hD⟩ := h.active q k v t m hq
      rw [hbytes k (hne q k hqp (by rw [hq]; rfl))]
      exact ⟨hv, by omega, hm, hlen, hD⟩
  · intro q r k hq hr
    by_cases hqp : q = p
    · by_cases hrp : r = p
      · rw [hqp, hrp]
      · rw [hqp, update_self] at hq
        rw [update_of_ne hrp] at hr
        exact absurd hq (hxq r k hrp hr)
    · rw [update_of_ne hqp] at hq
      by_cases hrp : r = p
      · rw [hrp, update_self] at hr
        exact absurd hr (hxq q k hqp hq)
      · rw [update_of_ne hrp] at hr
        exact h.distinct q r k hq hr
  · intro y hy
    rcases hret y hy with hy | ⟨hpy, hx, hans⟩
    · obtain ⟨hlt, hidle, hans⟩ := h.answered y hy
      refine ⟨by omega, ?_, ?_⟩
      · intro q
        by_cases hqp : q = p
        · rw [hqp, update_self]
          intro hxy
          rcases hcall _ hxy with hpy | hge
          · exact hidle p hpy
          · omega
        · rw [update_of_ne hqp]
          exact hidle q
      · rw [Trace.Answer, hbytes _ (hidle p)]
        exact hans
    · refine ⟨by have := hactive p y.1 hpy; omega, ?_, hans⟩
      intro q
      by_cases hqp : q = p
      · rw [hqp, update_self, hx]
        simp
      · rw [update_of_ne hqp]
        exact fun hq => hne q _ hqp hq hpy

theorem Reads.skip (h : Reads tr pl) (hcalls : tr'.calls = tr.calls) (htaken : tr'.taken = tr.taken)
    (hret : tr'.returned = tr.returned) {x : Place} (hx : x.call = none) :
    Reads tr' (update pl p x) := by
  have hbytes : ∀ k, tr'.bytesOf k = tr.bytesOf k := by
    intro k
    rw [Trace.bytesOf, htaken, Trace.bytesOf]
  refine h.move hcalls.ge (fun k _ => hbytes k) ?_ ?_ ?_ ?_
  · rintro k v t m rfl
    cases hx
  · intro k hk
    rw [hx] at hk
    cases hk
  · rw [htaken, hcalls]
    exact h.old
  · intro y hy
    rw [hret] at hy
    exact .inl hy

end

/-! ## The steps -/

section
variable {n : ℕ} {d : Shared n} {pl : Fin n → Place} {p : Fin n}

structure Inv (d : Shared n) (pl : Fin n → Place) : Prop where
  edits : Edits d.cons d.trace
  reads : Reads d.trace pl

def Ready (d : Shared n) : Prop := d.cons.r ≠ d.cons.w

theorem Inv.call (h : Inv d pl) {c : Call n} (hv : c.valid = true) {d' : Shared n}
    (hc : call d c (pl p) = some (d', x)) : Inv d' (update pl p x) ∧ (Ready d' → Ready d) := by
  unfold Console.call at hc
  split at hc
  · next hp =>
    cases hc
    exact ⟨⟨h.edits, h.reads.skip rfl rfl rfl rfl⟩, id⟩
  · next v m hp =>
    cases hc
    refine ⟨⟨⟨h.edits.holds, h.edits.plain, h.edits.le, h.edits.taken, h.edits.delivered⟩, ?_⟩, id⟩
    refine h.reads.move (Nat.le_succ _) (fun _ _ => rfl) ?_ ?_ ?_ fun y hy => .inl hy
    · intro k v' t m' hx
      cases hx
      have hnil : d.trace.bytesOf d.trace.calls = [] := h.reads.bytesOf_calls
      refine ⟨hv, Nat.lt_succ_self _, le_rfl, ?_, ?_⟩
      · change ((d.trace.bytesOf d.trace.calls).length : ℤ) = m - m
        rw [hnil]
        simp
      · change C 'D' ∉ d.trace.bytesOf d.trace.calls
        rw [hnil]
        exact List.not_mem_nil
    · intro k hk
      exact .inr (Option.some.inj hk).le
    · intro y hy
      exact Nat.lt_succ_of_lt (h.reads.old y hy)
  · next hp =>
    cases hc
    exact ⟨⟨h.edits, h.reads.skip rfl rfl rfl rfl⟩, id⟩
  · cases hc

theorem Inv.ret (h : Inv d pl) {val : ℤ} (hp : pl p = .read k v t m) (hans : d.trace.Answer k val) :
    Inv (d.ret k val) (update pl p .idle) := by
  refine ⟨⟨h.edits.holds, h.edits.plain, h.edits.le, h.edits.taken, h.edits.delivered⟩, ?_⟩
  refine h.reads.move le_rfl (fun _ _ => rfl) nofun nofun h.reads.old ?_
  intro y hy
  rcases List.mem_append.mp hy with hy | hy
  · exact .inl hy
  · obtain rfl := List.mem_singleton.mp hy
    exact .inr ⟨by rw [hp]; rfl, rfl, hans⟩

theorem bytesOf_take (d : Shared n) (k j : ℕ) (c : UInt8) : (d.take k c).trace.bytesOf j =
    if j = k then d.trace.bytesOf j ++ [c] else d.trace.bytesOf j := bytesOf_append rfl j

theorem old_take (h : Reads d.trace pl) (hp : pl p = .read k v t m) (c : UInt8) :
    ∀ y ∈ (d.take k c).trace.taken, y.1 < d.trace.calls := by
  intro y hy
  rcases List.mem_append.mp hy with hy | hy
  · exact h.old y hy
  · obtain rfl := List.mem_singleton.mp hy
    exact (h.active p k v t m hp).2.1

theorem Inv.get (h : Inv d pl) (hp : pl p = .read k v t m) (hu : d.trace.unread = c :: u)
    (hc : c ≠ C 'D') : Inv ((d.take k c).deliver c) (update pl p (.read k v t (m - 1))) := by
  obtain ⟨hv, hk, hle, hlen, hD⟩ := h.reads.active p k v t m hp
  refine ⟨h.edits.take hu rfl rfl (by rw [if_neg hc]; rfl), ?_⟩
  refine h.reads.move le_rfl ?_ ?_ ?_ (old_take h.reads hp c) fun y hy => .inl hy
  · intro j hj
    refine (bytesOf_take d k j c).trans (if_neg ?_)
    rintro rfl
    exact hj (by rw [hp]; rfl)
  · intro k' v' t' m' hx
    cases hx
    have hbytes : ((d.take k c).deliver c).trace.bytesOf k = d.trace.bytesOf k ++ [c] :=
      (bytesOf_take d k k c).trans (if_pos rfl)
    refine ⟨hv, hk, by omega, ?_, ?_⟩
    · rw [hbytes, List.length_append, List.length_singleton]
      omega
    · rw [hbytes]
      intro hmem
      rcases List.mem_append.mp hmem with hmem | hmem
      · exact hD hmem
      · exact hc (List.mem_singleton.mp hmem).symm
  · intro j hj
    exact .inl (by rw [hp]; exact hj)

theorem Inv.eof (h : Inv d pl) (hp : pl p = .read k v t t) (hu : d.trace.unread = C 'D' :: u) :
    Inv ((d.take k (C 'D')).ret k 0) (update pl p .idle) := by
  obtain ⟨hv, hk, hle, hlen, hD⟩ := h.reads.active p k v t t hp
  refine ⟨h.edits.take hu rfl rfl (by rw [if_pos rfl, List.append_nil]; rfl), ?_⟩
  refine h.reads.move le_rfl ?_ nofun nofun (old_take h.reads hp _) ?_
  · intro j hj
    refine (bytesOf_take d k j _).trans (if_neg ?_)
    rintro rfl
    exact hj (by rw [hp]; rfl)
  · intro y hy
    rcases List.mem_append.mp hy with hy | hy
    · exact .inl hy
    · obtain rfl := List.mem_singleton.mp hy
      refine .inr ⟨by rw [hp]; rfl, rfl, .inr ⟨?_, rfl⟩⟩
      have hnil : d.trace.bytesOf k = [] := List.length_eq_zero_iff.mp (by omega)
      exact ((bytesOf_take d k k _).trans (if_pos rfl)).trans (by rw [hnil]; rfl)

theorem ready_of_unread (h : Inv d pl) (hu : d.trace.unread = c :: u) : Ready d := by
  rw [Ready, Ne, h.edits.holds.r_eq_w, hu]
  exact List.cons_ne_nil _ _

theorem Inv.consoleread (h : Inv d pl) (hp : pl p = .read k v t m) :
    (consoleread p d k v t m).Sound Inv Ready p d pl := by
  obtain ⟨hv, hk, hle, hlen, hD⟩ := h.reads.active p k v t m hp
  have hself : update pl p (.read k v t m) = pl := by
    rw [← hp, update_eq_self]
  unfold Console.consoleread
  split
  · split
    · next hempty =>
      split
      · exact ⟨h.ret hp (.inl ⟨hD, .inl rfl⟩), id⟩
      · exact ⟨hself.symm ▸ h, not_not.mpr hempty⟩
    · next hfull =>
      obtain ⟨c, u, hu⟩ := List.exists_cons_of_ne_nil
        (fun hnil => hfull (h.edits.holds.r_eq_w.mpr hnil))
      have hholds := h.edits.holds
      rw [hu] at hholds
      have hready := ready_of_unread h hu
      dsimp only
      rw [hholds.pop.1]
      split
      · next hc =>
        subst hc
        split
        · exact ⟨h.ret hp (.inl ⟨hD, .inr hlen.symm⟩), id⟩
        · obtain rfl : m = t := by omega
          rw [Int.sub_self]
          exact ⟨h.eof hp hu, fun _ => hready⟩
      · next hc =>
        have hget := h.get hp hu hc
        split
        · refine ⟨?_, fun _ => hready⟩
          obtain ⟨-, -, -, hlen', hD'⟩ := hget.reads.active p k v t (m - 1) (update_self _ _ _)
          have hret := hget.ret (update_self _ _ _) (.inl ⟨hD', .inr hlen'.symm⟩)
          rwa [update_idem] at hret
        · exact ⟨hget, fun _ => hready⟩
  · exact ⟨h.ret hp (.inl ⟨hD, .inr hlen.symm⟩), id⟩

theorem killLoop_frame (m : ℕ) (k : Cons) : (killLoop m k).r = k.r ∧ (killLoop m k).w = k.w := by
  induction m generalizing k with
  | zero => exact ⟨rfl, rfl⟩
  | succ m ih =>
    rw [killLoop]
    split
    · exact ih _
    · exact ⟨rfl, rfl⟩

theorem consoleintr_frame (c : UInt8) (k : Cons) (h : (consoleintr c k).2 = false) :
    (consoleintr c k).1.r = k.r ∧ (consoleintr c k).1.w = k.w := by
  unfold consoleintr at h ⊢
  split
  · exact ⟨rfl, rfl⟩
  · split
    · exact killLoop_frame _ _
    · split
      · dsimp only
        split <;> exact ⟨rfl, rfl⟩
      · next hP hU hH =>
        rw [if_neg hP, if_neg hU, if_neg hH] at h
        split
        · next hroom =>
          rw [if_pos hroom] at h
          generalize (if c = carriageReturn then newline else c) = c' at h ⊢
          dsimp only at h ⊢
          split
          · next hcommit =>
            rw [if_pos hcommit] at h
            cases h
          · exact ⟨rfl, rfl⟩
        · exact ⟨rfl, rfl⟩

theorem Inv.intr (h : Inv d pl) (c : UInt8) (hx : x.call = none) :
    Inv (d.intr c) (update pl p x) := by
  constructor
  · exact h.edits.intr rfl rfl rfl
  · apply h.reads.skip _ _ _ hx <;> rfl

theorem sound : ((program n).only Call.valid).Sound Inv Ready := by
  constructor
  · intro c p d pl d' x h hfree
    simp only [Monitor.Program.only] at hfree
    split at hfree
    · next hv => exact h.call hv hfree
    · cases hfree
  · intro p d pl a h hact
    simp only [Monitor.Program.only, program] at hact
    cases hp : pl p with
    | idle =>
      rw [hp] at hact
      cases hact
    | intr c =>
      rw [hp, act] at hact
      cases hact
      split
      · exact h.intr c rfl
      · next hquiet =>
        refine ⟨h.intr c rfl, ?_⟩
        obtain ⟨hr, hw⟩ := consoleintr_frame c d.cons (Bool.eq_false_iff.mpr hquiet)
        intro hready
        change (consoleintr c d.cons).1.r ≠ (consoleintr c d.cons).1.w at hready
        rwa [hr, hw] at hready
    | woke =>
      rw [hp] at hact
      cases hact
      exact ⟨⟨h.edits, h.reads.skip rfl rfl rfl rfl⟩, id⟩
    | read k v t m =>
      rw [hp, act] at hact
      cases hact
      exact h.consoleread hp

theorem ok_of_reachable {s : Monitor.State n (Shared n) Place} (hs : (sys n).Reachable s) :
    Monitor.Ok Inv Ready s := by
  refine sound.ok ⟨Edits.init, ?_⟩ hs
  exact ⟨nofun, nofun, nofun, nofun⟩

/-- Whenever the lock is free, a process sleeps in `consoleread` only if all that has been committed
has been read. -/
theorem no_stuck_reader {s : Monitor.State n (Shared n) Place} (hs : (sys n).Reachable s)
    (hfree : s.lock = none) {q : Fin n} (hq : s.mode q = .sleeping x) :
    s.data.trace.unread = [] := by
  have hok := ok_of_reachable hs
  have hready := hok.not_ready_of_free hfree hq
  exact hok.data.edits.holds.r_eq_w.mp (not_not.mp hready)

def typeAndRead : List (Monitor.Event 2 (Call 2)) :=
  ([98, 127, 97, 4].flatMap fun c => [Monitor.Event.free 0 (.intr c), .enter 0, .act 0]) ++
    [Monitor.Event.wake 0, .wake 0, .wake 0, .act 0] ++
    [Monitor.Event.free 1 (.read true 10), .enter 1, .act 1, .act 1, .free 1 (.read true 10),
      .enter 1, .act 1]

/-- After what has been typed is read, up to the end of file, the next read sleeps. -/
theorem no_stuck_reader_typeAndRead : ∃ s : Monitor.State 2 (Shared 2) Place, (sys 2).Reachable s ∧
    s.mode 1 = .sleeping (.read 2 true 10 10) ∧ s.data.trace.editor.done = [97, C 'D'] ∧
    s.data.trace.unread = [] := by
  have hrun : (TransSys.exec (fun s e => (Monitor.step ((program 2).only Call.valid) s e).result)
      ⟨Shared.init, none, fun _ => .out .idle⟩
      (typeAndRead ++ [Monitor.Event.free 1 (.read true 10), .enter 1, .act 1, .doze 1])).any
        (fun s => s.lock = none ∧ s.mode 1 = .sleeping (.read 2 true 10 10) ∧
          s.data.trace.editor.done = [97, C 'D']) = true := by decide +kernel
  obtain ⟨s, hs, h⟩ := (Option.any_eq_true _ _).1 hrun
  obtain ⟨hfree, hq, hdone⟩ := of_decide_eq_true h
  have hreach : (sys 2).Reachable s :=
    (TransSys.Reachable.init rfl).run (.of_exec (fun _ _ _ => Outcome.result_eq_some.mp) hs)
  exact ⟨s, hreach, hq, hdone, no_stuck_reader hreach hfree hq⟩

/-- The indices are in order. The bytes delivered are the first ones the editor has committed,
without the ends of file; the buffer holds the rest of them and the line being edited. A read that
takes out an end of file takes out nothing else and returns 0; any other returns the number of its
bytes, or -1 if it was killed. -/
theorem line_discipline {s : Monitor.State n (Shared n) Place} (hs : (sys n).Reachable s) :
    let k := s.data.cons
    let tr := s.data.trace
    ((k.w - k.r).toNat ≤ (k.e - k.r).toNat ∧ (k.e - k.r).toNat ≤ INPUT_BUF_SIZE) ∧
    (∃ m ≤ tr.editor.done.length, tr.delivered = (tr.editor.done.take m).filter (· ≠ C 'D') ∧
      tr.taken.map Prod.snd = tr.editor.done.take m ∧
      (ring k).contents = tr.editor.done.drop m ++ tr.editor.line ∧
      (k.w - k.r).toNat = (tr.editor.done.drop m).length) ∧
    ∀ j v, (j, v) ∈ tr.returned →
      (C 'D' ∈ tr.bytesOf j → tr.bytesOf j = [C 'D'] ∧ v = 0) ∧
      (C 'D' ∉ tr.bytesOf j → v = -1 ∨ v = (tr.bytesOf j).length) := by
  have hI := (ok_of_reachable hs).data
  have hholds := hI.edits.holds
  refine ⟨⟨?_, ?_⟩, ⟨s.data.trace.taken.length, hI.edits.le, ?_, hI.edits.taken, hholds.contents,
    hholds.w_sub_r⟩, ?_⟩
  · rw [hholds.w_sub_r, hholds.e_sub_r]
    exact Nat.le_add_right _ _
  · rw [hholds.e_sub_r]
    exact hholds.room
  · rw [hI.edits.delivered, hI.edits.taken]
  · intro j v hj
    rcases (hI.reads.answered (j, v) hj).2.2 with ⟨hD, hv⟩ | ⟨hbytes, hv⟩
    · exact ⟨fun hmem => absurd hmem hD, fun _ => hv⟩
    · refine ⟨fun _ => ⟨hbytes, hv⟩, ?_⟩
      intro hD
      rw [show s.data.trace.bytesOf j = [C 'D'] from hbytes] at hD
      exact absurd (List.mem_singleton_self _) hD

end

theorem line_discipline_typeAndRead : ∃ s : Monitor.State 2 (Shared 2) Place, (sys 2).Reachable s ∧
    s.data.trace.delivered = [97] ∧ s.data.trace.returned = [(0, 1), (1, 0)] ∧
    ∃ m ≤ s.data.trace.editor.done.length,
      [97] = (s.data.trace.editor.done.take m).filter (· ≠ C 'D') := by
  have hrun : ((TransSys.exec (fun s e =>
      (Monitor.step ((program 2).only Call.valid) s e).result)
      ⟨Shared.init, none, fun _ => .out .idle⟩ typeAndRead).map fun s =>
        (s.data.trace.delivered, s.data.trace.returned)) =
      some ([97], [(0, 1), (1, 0)]) := by decide +kernel
  obtain ⟨s, hs, h⟩ := Option.map_eq_some_iff.mp hrun
  obtain ⟨hdelivered, hreturned⟩ := Prod.mk.inj h
  have hreach : (sys 2).Reachable s :=
    (TransSys.Reachable.init rfl).run (.of_exec (fun _ _ _ => Outcome.result_eq_some.mp) hs)
  obtain ⟨-, ⟨m, hm, hdel, -⟩, -⟩ := line_discipline hreach
  exact ⟨s, hreach, hdelivered, hreturned, m, hm, hdelivered ▸ hdel⟩

end Xv6.Console
