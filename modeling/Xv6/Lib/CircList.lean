import Mathlib.Data.List.Nodup

/-! # Circular doubly linked lists with a sentinel

The nodes are the elements of `ι` and the sentinel `none`. The two operations are sequences of
single assignments to `prev` and `next`, in which the nodes assigned to may coincide; `Circular`
says which list the links hold.
-/

set_option autoImplicit false
open Function (update update_self update_of_ne)

structure Links (ι : Type*) where
  prev : Option ι → Option ι
  next : Option ι → Option ι

namespace Links
variable {ι : Type*} [DecidableEq ι]

def setPrev (k : Links ι) (a b : Option ι) : Links ι := { k with prev := update k.prev a b }

def setNext (k : Links ι) (a b : Option ι) : Links ι := { k with next := update k.next a b }

def unlink (k : Links ι) (b : ι) : Links ι :=
  let k := k.setPrev (k.next (some b)) (k.prev (some b))
  k.setNext (k.prev (some b)) (k.next (some b))

def pushFront (k : Links ι) (b : ι) : Links ι :=
  let k := k.setNext (some b) (k.next none)
  let k := k.setPrev (some b) none
  let k := k.setPrev (k.next none) (some b)
  k.setNext none (some b)

def clear (k : Links ι) : Links ι := (k.setPrev none none).setNext none none

/-- Follow `f` from `x` to the first node that meets `p`, or to the sentinel; the result is `none`
when `fuel` nodes are not enough. -/
def scan (f : Option ι → Option ι) (p : ι → Bool) : ℕ → Option ι → Option (Option ι)
  | 0, _ => none
  | _ + 1, none => some none
  | fuel + 1, some b => if p b then some (some b) else scan f p fuel (f (some b))

/-! ## Paths -/

/-- The links lead from `a` through the nodes of the list to `z`, and back. -/
def Path (k : Links ι) : Option ι → List ι → Option ι → Prop
  | a, [], z => k.next a = z ∧ k.prev z = a
  | a, x :: l, z => k.next a = some x ∧ k.prev (some x) = a ∧ k.Path (some x) l z

def Circular (k : Links ι) (l : List ι) : Prop := k.Path none l none ∧ l.Nodup

section Path
omit [DecidableEq ι]
variable {k k' : Links ι} {a z : Option ι} {l m : List ι} {b : ι} {fuel : ℕ}

theorem path_append : k.Path a (l ++ b :: m) z ↔ k.Path a l (some b) ∧ k.Path (some b) m z := by
  induction l generalizing a with
  | nil => simp [Path, and_assoc]
  | cons x l ih => simp [Path, ih, and_assoc]

theorem Path.congr (h : k.Path a l z) (hnext : k'.next a = k.next a)
    (hnext' : ∀ x ∈ l, k'.next (some x) = k.next (some x)) (hprev : k'.prev z = k.prev z)
    (hprev' : ∀ x ∈ l, k'.prev (some x) = k.prev (some x)) : k'.Path a l z := by
  induction l generalizing a with
  | nil =>
    rw [Path, hnext, hprev]
    exact h
  | cons x l ih =>
    refine ⟨hnext.trans h.1, (hprev' x List.mem_cons_self).trans h.2.1, ?_⟩
    apply ih h.2.2 (hnext' x List.mem_cons_self)
    · intro y hy
      exact hnext' y (List.mem_cons_of_mem x hy)
    · intro y hy
      exact hprev' y (List.mem_cons_of_mem x hy)

theorem Path.prev_mem (h : k.Path a l z) : k.prev z = a ∨ ∃ x ∈ l, k.prev z = some x := by
  induction l generalizing a with
  | nil => exact .inl h.2
  | cons x l ih =>
    rcases ih h.2.2 with hx | ⟨y, hy, hz⟩
    · exact .inr ⟨x, List.mem_cons_self, hx⟩
    · exact .inr ⟨y, List.mem_cons_of_mem x hy, hz⟩

theorem Path.next_mem (h : k.Path a l z) : k.next a = z ∨ ∃ x ∈ l, k.next a = some x := by
  cases l with
  | nil => exact .inl h.1
  | cons x l => exact .inr ⟨x, List.mem_cons_self, h.1⟩

theorem Path.reverse (h : k.Path a l z) : (⟨k.next, k.prev⟩ : Links ι).Path z l.reverse a := by
  induction l generalizing a with
  | nil => exact ⟨h.2, h.1⟩
  | cons x l ih =>
    rw [List.reverse_cons, path_append]
    exact ⟨ih h.2.2, h.2.1, h.1⟩

theorem Path.join (h : k.Path a l (some b)) (h' : k.Path (some b) m z) (hnodup : (l ++ m).Nodup)
    (ha : ∀ x ∈ l ++ m, a ≠ some x) (hz : ∀ x ∈ l ++ m, z ≠ some x)
    (hnext : k'.next (k.prev (some b)) = k.next (some b))
    (hprev : k'.prev (k.next (some b)) = k.prev (some b))
    (hnext' : ∀ x, x ≠ k.prev (some b) → k'.next x = k.next x)
    (hprev' : ∀ x, x ≠ k.next (some b) → k'.prev x = k.prev x) : k'.Path a (l ++ m) z := by
  induction l generalizing a with
  | nil =>
    rw [h.2] at hnext hprev hnext'
    cases m with
    | nil =>
      rw [h'.1] at hnext hprev
      exact ⟨hnext, hprev⟩
    | cons y m =>
      rw [h'.1] at hnext hprev hprev'
      obtain ⟨hy, -⟩ := List.nodup_cons.mp hnodup
      refine ⟨hnext, hprev, h'.2.2.congr ?_ ?_ ?_ ?_⟩
      · exact hnext' _ (ha y List.mem_cons_self).symm
      · intro x hx
        exact hnext' _ (ha x (List.mem_cons_of_mem y hx)).symm
      · exact hprev' _ (hz y List.mem_cons_self)
      · intro x hx
        apply hprev'
        intro hxy
        exact hy (Option.some.inj hxy ▸ hx)
  | cons x l ih =>
    obtain ⟨hx, hnodup'⟩ := List.nodup_cons.mp hnodup
    refine ⟨?_, ?_, ih h.2.2 hnodup' ?_ ?_⟩
    · rw [← h.1]
      apply hnext'
      rcases h.2.2.prev_mem with hp | ⟨y, hy, hp⟩
      · rw [hp]
        exact ha x List.mem_cons_self
      · rw [hp]
        exact ha y (List.mem_cons_of_mem x (List.mem_append_left m hy))
    · rw [← h.2.1]
      apply hprev'
      rcases h'.next_mem with hn | ⟨y, hy, hn⟩
      · rw [hn]
        exact (hz x List.mem_cons_self).symm
      · rw [hn]
        intro hxy
        exact hx (Option.some.inj hxy ▸ List.mem_append_right l hy)
    · intro y hy hxy
      exact hx (Option.some.inj hxy ▸ hy)
    · intro y hy
      exact hz y (List.mem_cons_of_mem x hy)

theorem Path.scan_next (h : k.Path a l none) (p : ι → Bool) (hf : l.length < fuel) :
    scan k.next p fuel (k.next a) = some (l.find? p) := by
  induction l generalizing a fuel with
  | nil =>
    obtain ⟨fuel, rfl⟩ : ∃ n, fuel = n + 1 := ⟨fuel - 1, by simp at hf; omega⟩
    rw [h.1]
    rfl
  | cons x l ih =>
    obtain ⟨fuel, rfl⟩ : ∃ n, fuel = n + 1 := ⟨fuel - 1, by simp at hf; omega⟩
    rw [h.1, scan, List.find?_cons]
    cases p x with
    | true => rfl
    | false => exact ih h.2.2 (by simp at hf; omega)

theorem Circular.scan_next (h : k.Circular l) (p : ι → Bool) (hf : l.length < fuel) :
    scan k.next p fuel (k.next none) = some (l.find? p) := h.1.scan_next p hf

theorem Circular.scan_prev (h : k.Circular l) (p : ι → Bool) (hf : l.length < fuel) :
    scan k.prev p fuel (k.prev none) = some (l.reverse.find? p) :=
  h.1.reverse.scan_next p (by rwa [List.length_reverse])

end Path

/-! ## The operations -/

section Ops
variable {k : Links ι} {l m : List ι} {b : ι}

theorem circular_clear : k.clear.Circular [] := by
  refine ⟨⟨?_, ?_⟩, List.nodup_nil⟩ <;> simp [clear, setPrev, setNext]

theorem Circular.unlink (h : k.Circular (l ++ b :: m)) : (k.unlink b).Circular (l ++ m) := by
  obtain ⟨hpath, hnodup⟩ := h
  obtain ⟨hleft, hright⟩ := path_append.mp hpath
  have hb : b ∉ m := (List.nodup_cons.mp (List.nodup_append.mp hnodup).2.1).1
  have hnodup' : (l ++ m).Nodup := (List.nodup_middle.mp hnodup).of_cons
  -- the first assignment does not change `b` itself
  have hself : some b ≠ k.next (some b) := by
    rcases hright.next_mem with hn | ⟨y, hy, hn⟩
    · rw [hn]
      exact Option.some_ne_none b
    · rw [hn]
      intro hby
      exact hb (Option.some.inj hby ▸ hy)
  have hp : (k.setPrev (k.next (some b)) (k.prev (some b))).prev (some b) = k.prev (some b) :=
    update_of_ne hself _ _
  refine ⟨hleft.join hright hnodup' (fun x _ => (Option.some_ne_none x).symm)
    (fun x _ => (Option.some_ne_none x).symm) ?_ ?_ ?_ ?_, hnodup'⟩
  · simp only [Links.unlink, hp]
    exact update_self _ _ _
  · exact update_self _ _ _
  · intro x hx
    simp only [Links.unlink, hp]
    exact update_of_ne hx _ _
  · intro x hx
    exact update_of_ne hx _ _

theorem Circular.pushFront (h : k.Circular l) (hb : b ∉ l) : (k.pushFront b).Circular (b :: l) := by
  obtain ⟨hpath, hnodup⟩ := h
  have hne : ∀ x ∈ l, some x ≠ some b := by
    intro x hx hxb
    exact hb (Option.some.inj hxb ▸ hx)
  refine ⟨?_, List.nodup_cons.mpr ⟨hb, hnodup⟩⟩
  cases l with
  | nil =>
    refine ⟨?_, ?_, ?_, ?_⟩ <;>
      simp [Links.pushFront, setNext, setPrev, hpath.1]
  | cons y l =>
    have hy : some y ≠ some b := hne y List.mem_cons_self
    refine ⟨?_, ?_, ?_, ?_, hpath.2.2.congr ?_ ?_ ?_ ?_⟩
    · simp [Links.pushFront, setNext]
    · simp [Links.pushFront, setNext, setPrev, hpath.1, hy.symm]
    · simp [Links.pushFront, setNext, setPrev, hpath.1]
    · simp [Links.pushFront, setNext, setPrev, hpath.1]
    · simp [Links.pushFront, setNext, setPrev, hy]
    · intro x hx
      have hx := hne x (List.mem_cons_of_mem y hx)
      simp [Links.pushFront, setNext, setPrev, hx]
    · simp [Links.pushFront, setNext, setPrev, hpath.1]
    · intro x hx
      have hxb := hne x (List.mem_cons_of_mem y hx)
      have hxy : x ≠ y := by
        rintro rfl
        exact (List.nodup_cons.mp hnodup).1 hx
      simp [Links.pushFront, setNext, setPrev, hpath.1, hxb, hxy]

theorem circular_foldl_pushFront (bs : List ι) (h : k.Circular l) (hbs : (bs.reverse ++ l).Nodup) :
    (bs.foldl Links.pushFront k).Circular (bs.reverse ++ l) := by
  induction bs generalizing k l with
  | nil => exact h
  | cons b bs ih =>
    rw [List.reverse_cons, List.append_assoc, List.singleton_append] at hbs ⊢
    have hb : b ∉ l := (List.nodup_cons.mp (List.nodup_append.mp hbs).2.1).1
    exact ih (h.pushFront hb) hbs

theorem Circular.moveFront (h : k.Circular l) (hb : b ∈ l) :
    ((k.unlink b).pushFront b).Circular (b :: l.erase b) := by
  obtain ⟨u, v, hu, rfl, herase⟩ := List.exists_erase_eq hb
  rw [herase]
  have hnot : b ∉ u ++ v := (List.nodup_cons.mp (List.nodup_middle.mp h.2)).1
  exact h.unlink.pushFront hnot

end Ops
end Links
