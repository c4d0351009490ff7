import Mathlib.Data.List.Basic

/-! # grep

`match`, `matchhere`, `matchstar` and `grep` of `user/grep.c`. A C string is the list of its bytes
before the NUL.
-/

namespace Xv6.User.Grep
set_option autoImplicit false

def dot : UInt8 := 46
def star : UInt8 := 42
def dollar : UInt8 := 36
def caret : UInt8 := 94
def newline : UInt8 := 10

/-! ## The matcher -/

/-- `matchstar(c, re, text)`, where `here` is `matchhere(re, _)`. -/
def matchstar (here : List UInt8 → Bool) (c : UInt8) : List UInt8 → Bool
  | [] => here []
  | t :: text => here (t :: text) || ((t == c || c == dot) && matchstar here c text)

/-- The last test of `matchhere`, where `here` is `matchhere(re+1, _)`. -/
def matchchar (here : List UInt8 → Bool) (c : UInt8) : List UInt8 → Bool
  | [] => false
  | t :: text => (c == dot || c == t) && here text

def matchhere : List UInt8 → List UInt8 → Bool
  | [], _ => true
  | [c], text => if c = dollar then text.isEmpty else matchchar (matchhere []) c text
  | c :: d :: re, text =>
    if d = star then matchstar (matchhere re) c text else matchchar (matchhere (d :: re)) c text

def matchFrom (re : List UInt8) : List UInt8 → Bool
  | [] => matchhere re []
  | t :: text => matchhere re (t :: text) || matchFrom re text

def matchText (re text : List UInt8) : Bool :=
  if re.head? = some caret then matchhere re.tail text else matchFrom re text

/-! ## The language of a pattern -/

inductive Item where
  | one (c : UInt8)
  | many (c : UInt8)
  | atEnd

/-- A character that is directly followed by a star belongs to it, whatever it is. -/
def items : List UInt8 → List Item
  | [] => []
  | [c] => if c = dollar then [.atEnd] else [.one c]
  | c :: d :: re => if d = star then .many c :: items re else .one c :: items (d :: re)

def StandsFor (c t : UInt8) : Prop := c = dot ∨ c = t

/-- The items match the bytes `w`, which `rest` follows in the text. -/
def Matches : List Item → (w rest : List UInt8) → Prop
  | [], w, _ => w = []
  | .one c :: l, w, rest => ∃ t v, w = t :: v ∧ StandsFor c t ∧ Matches l v rest
  | .many c :: l, w, rest => ∃ u v, w = u ++ v ∧ (∀ t ∈ u, StandsFor c t) ∧ Matches l v rest
  | .atEnd :: l, w, rest => w ++ rest = [] ∧ Matches l w rest

/-- Some substring matches, or some prefix for a pattern that starts with a caret. -/
def Accepts (re text : List UInt8) : Prop :=
  if re.head? = some caret then ∃ w rest, text = w ++ rest ∧ Matches (items re.tail) w rest
  else ∃ pre w rest, text = pre ++ w ++ rest ∧ Matches (items re) w rest

theorem matchstar_iff (here : List UInt8 → Bool) (c : UInt8) (text : List UInt8) :
    matchstar here c text = true ↔
      ∃ u v, text = u ++ v ∧ (∀ t ∈ u, StandsFor c t) ∧ here v = true := by
  induction text with
  | nil =>
    rw [matchstar]
    constructor
    · intro h
      exact ⟨[], [], rfl, by simp, h⟩
    · rintro ⟨u, v, huv, -, hv⟩
      obtain ⟨rfl, rfl⟩ := List.append_eq_nil_iff.mp huv.symm
      exact hv
  | cons t text ih =>
    rw [matchstar, Bool.or_eq_true, Bool.and_eq_true, ih]
    constructor
    · rintro (h | ⟨ht, u, v, rfl, hu, hv⟩)
      · exact ⟨[], _, rfl, by simp, h⟩
      · refine ⟨t :: u, v, rfl, ?_, hv⟩
        rintro x (- | ⟨_, hx⟩)
        · simp only [Bool.or_eq_true, beq_iff_eq] at ht
          exact ht.symm.imp_right Eq.symm
        · exact hu x hx
    · rintro ⟨u, v, huv, hu, hv⟩
      cases u with
      | nil =>
        rw [List.nil_append] at huv
        exact .inl (huv ▸ hv)
      | cons x u =>
        obtain ⟨rfl, rfl⟩ := List.cons.inj huv
        refine .inr ⟨?_, u, v, rfl, fun y hy => hu y (List.mem_cons_of_mem _ hy), hv⟩
        have ht := hu t List.mem_cons_self
        simp only [Bool.or_eq_true, beq_iff_eq]
        exact ht.symm.imp_left Eq.symm

theorem matchchar_iff (here : List UInt8 → Bool) (c : UInt8) (text : List UInt8) :
    matchchar here c text = true ↔ ∃ t v, text = t :: v ∧ StandsFor c t ∧ here v = true := by
  cases text with
  | nil => simp [matchchar]
  | cons t text => simp [matchchar, StandsFor]

theorem matchhere_iff (re text : List UInt8) :
    matchhere re text = true ↔ ∃ w rest, text = w ++ rest ∧ Matches (items re) w rest := by
  induction re using items.induct generalizing text with
  | case1 => simp [matchhere, items, Matches]
  | case2 =>
    simp only [matchhere, items, if_pos, Matches]
    constructor
    · intro h
      exact ⟨[], [], by simpa using h, rfl, rfl⟩
    · rintro ⟨w, rest, rfl, h, -⟩
      rw [h]
      rfl
  | case3 c hc =>
    simp only [matchhere, items, if_neg hc, Matches, matchchar_iff]
    constructor
    · rintro ⟨t, v, rfl, ht, -⟩
      exact ⟨[t], v, rfl, t, [], rfl, ht, rfl⟩
    · rintro ⟨w, rest, rfl, t, v, rfl, ht, -⟩
      exact ⟨t, v ++ rest, rfl, ht, trivial⟩
  | case4 c re ih =>
    simp only [matchhere, items, if_pos, Matches, matchstar_iff, ih]
    constructor
    · rintro ⟨u, v, rfl, hu, w, rest, rfl, hw⟩
      exact ⟨u ++ w, rest, (List.append_assoc ..).symm, u, w, rfl, hu, hw⟩
    · rintro ⟨w, rest, rfl, u, v, rfl, hu, hv⟩
      exact ⟨u, v ++ rest, List.append_assoc .., hu, v, rest, rfl, hv⟩
  | case5 c d re hd ih =>
    simp only [matchhere, items, if_neg hd, Matches, matchchar_iff, ih]
    constructor
    · rintro ⟨t, v, rfl, ht, w, rest, rfl, hw⟩
      exact ⟨t :: w, rest, rfl, t, w, rfl, ht, hw⟩
    · rintro ⟨w, rest, rfl, t, v, rfl, ht, hv⟩
      exact ⟨t, v ++ rest, rfl, ht, v, rest, rfl, hv⟩

theorem matchFrom_iff (re text : List UInt8) :
    matchFrom re text = true ↔ ∃ pre v, text = pre ++ v ∧ matchhere re v = true := by
  induction text with
  | nil => simp [matchFrom]
  | cons t text ih =>
    rw [matchFrom, Bool.or_eq_true, ih]
    constructor
    · rintro (h | ⟨pre, v, rfl, hv⟩)
      · exact ⟨[], _, rfl, h⟩
      · exact ⟨t :: pre, v, rfl, hv⟩
    · rintro ⟨pre, v, hv, h⟩
      cases pre with
      | nil => exact .inl (hv ▸ h)
      | cons x pre => exact .inr ⟨pre, v, (List.cons.inj hv).2, h⟩

/-- `match` ends on all strings, and returns 1 exactly for those that the pattern accepts. -/
theorem match_accepts (re text : List UInt8) : matchText re text = true ↔ Accepts re text := by
  rw [matchText, Accepts]
  split
  · exact matchhere_iff re.tail text
  · rw [matchFrom_iff]
    constructor
    · rintro ⟨pre, v, rfl, hv⟩
      obtain ⟨w, rest, rfl, hw⟩ := (matchhere_iff re v).mp hv
      exact ⟨pre, w, rest, (List.append_assoc ..).symm, hw⟩
    · rintro ⟨pre, w, rest, rfl, hw⟩
      exact ⟨pre, w ++ rest, List.append_assoc .., (matchhere_iff re _).mpr ⟨w, rest, rfl, hw⟩⟩

/-! ## Reading a file -/

/-- The text before the first `c`, and what comes after it. -/
def strchr (c : UInt8) : List UInt8 → Option (List UInt8 × List UInt8)
  | [] => none
  | x :: s =>
    if x = 0 then none
    else if x = c then some ([], s)
    else (strchr c s).map fun r => (x :: r.1, r.2)

/-- The inner loop of `grep` from `p` on: what it writes, and `p` at its end. Every iteration uses
up a newline. -/
def printLines (pattern : List UInt8) : (fuel : ℕ) → (p : List UInt8) → List UInt8 × List UInt8
  | 0, p => ([], p)
  | fuel + 1, p =>
    match strchr newline p with
    | none => ([], p)
    | some (line, p) =>
      let (out, p) := printLines pattern fuel p
      ((if matchText pattern line then line ++ [newline] else []) ++ out, p)

def bufSize : ℕ := 1024

/-- A `read` of at most `max` bytes, where `want` is how many there are to be read just now. -/
def readCount (want max left : ℕ) : ℕ := Nat.min (Nat.max 1 want) (Nat.min max left)

/-- The outer loop of `grep`, at its `j`-th `read`, with the bytes `buf` in the buffer and `rest`
not read yet. -/
def grepLoop (pattern : List UInt8) (want : ℕ → ℕ) :
    (fuel j : ℕ) → (buf rest : List UInt8) → List UInt8
  | 0, _, _, _ => []
  | fuel + 1, j, buf, rest =>
    let n := readCount (want j) (bufSize - buf.length - 1) rest.length
    if n = 0 then []
    else
      let buf := buf ++ rest.take n
      let (out, p) := printLines pattern buf.length buf
      out ++ grepLoop pattern want fuel (j + 1) p (rest.drop n)

def grep (pattern : List UInt8) (want : ℕ → ℕ) (file : List UInt8) (fuel : ℕ) : List UInt8 :=
  grepLoop pattern want fuel 0 [] file

/-! ## The lines of a file -/

/-- The lines, each with its newline; the last one may have none. -/
def linesOf : List UInt8 → List (List UInt8)
  | [] => []
  | c :: file =>
    if c = newline then [c] :: linesOf file
    else
      match linesOf file with
      | [] => [[c]]
      | line :: lines => (c :: line) :: lines

def textOf (line : List UInt8) : List UInt8 := line.filter (· ≠ newline)

def matching (pattern file : List UInt8) : List UInt8 :=
  ((linesOf file).filter fun line => matchText pattern (textOf line)).flatten

def OneLine (l : List UInt8) : Prop := newline ∉ l

theorem oneLine_nil : OneLine [] :=
  List.not_mem_nil

variable {l : List UInt8}

theorem oneLine_snoc {c : UInt8} (hl : OneLine l) (hc : c ≠ newline) : OneLine (l ++ [c]) := by
  simpa [OneLine, hl, eq_comm] using ⟨hl, hc⟩

theorem linesOf_append (hl : OneLine l) (file : List UInt8) :
    linesOf (l ++ newline :: file) = (l ++ [newline]) :: linesOf file := by
  induction l with
  | nil => rfl
  | cons c l ih =>
    obtain ⟨hc, hl⟩ := List.ne_and_not_mem_of_not_mem_cons hl
    rw [List.cons_append, linesOf, if_neg (Ne.symm hc), ih hl]
    rfl

theorem linesOf_eq_cons (hl : OneLine l) (hne : l ≠ []) (file : List UInt8) :
    ∃ r lines, linesOf (l ++ file) = (l ++ r) :: lines ∧ (file = [] → r = []) := by
  induction l with
  | nil => exact absurd rfl hne
  | cons c l ih =>
    obtain ⟨hc, hl⟩ := List.ne_and_not_mem_of_not_mem_cons hl
    rw [List.cons_append, linesOf, if_neg (Ne.symm hc)]
    cases l with
    | nil =>
      cases hfile : linesOf file with
      | nil => exact ⟨[], [], by simp [hfile], fun _ => rfl⟩
      | cons line lines =>
        refine ⟨line, lines, by simp [hfile], ?_⟩
        rintro rfl
        cases hfile
    | cons d l =>
      obtain ⟨r, lines, heq, hr⟩ := ih hl (List.cons_ne_nil _ _)
      exact ⟨r, lines, by rw [heq]; rfl, hr⟩

theorem textOf_append (hl : OneLine l) : textOf (l ++ [newline]) = l := by
  rw [textOf, List.filter_append, List.filter_eq_self.mpr]
  · simp
  · intro c hc
    exact decide_eq_true fun h => hl (h ▸ hc)

theorem linesOf_ne_nil {file : List UInt8} : ∀ l ∈ linesOf file, l ≠ [] := by
  induction file with
  | nil => simp [linesOf]
  | cons c file ih =>
    rw [linesOf]
    split
    · simpa using ih
    · split
      · simp
      · next line lines heq =>
        rw [heq] at ih
        simpa using fun l hl => ih l (List.mem_cons_of_mem _ hl)

/-! ## One byte at a time -/

section
variable {pattern : List UInt8}

/-- What is printed of the line that `line` starts and of those that follow it, as long as they fit
into the buffer. -/
def printFrom (pattern : List UInt8) (line : List UInt8) : List UInt8 → List UInt8
  | [] => []
  | c :: s =>
    if line.length + 1 = bufSize then []
    else if c = newline then
      (if matchText pattern line then line ++ [newline] else []) ++ printFrom pattern [] s
    else printFrom pattern (line ++ [c]) s

theorem strchr_append {l : List UInt8} (hl : OneLine l) (h0 : 0 ∉ l) (s : List UInt8) :
    strchr newline (l ++ newline :: s) = some (l, s) := by
  induction l with
  | nil => rfl
  | cons c l ih =>
    obtain ⟨hc, hl⟩ := List.ne_and_not_mem_of_not_mem_cons hl
    obtain ⟨hc0, h0⟩ := List.ne_and_not_mem_of_not_mem_cons h0
    rw [List.cons_append, strchr, if_neg (Ne.symm hc0), if_neg (Ne.symm hc), ih hl h0]
    rfl

theorem strchr_oneLine {l : List UInt8} (hl : OneLine l) : strchr newline l = none := by
  induction l with
  | nil => rfl
  | cons c l ih =>
    obtain ⟨hc, hl⟩ := List.ne_and_not_mem_of_not_mem_cons hl
    rw [strchr, if_neg (Ne.symm hc), ih hl]
    simp

/-- The inner loop does the same with a whole buffer. -/
theorem printFrom_append (pattern : List UInt8) {line chunk : List UInt8} (rest : List UInt8)
    (hline : OneLine line)
    (h0 : 0 ∉ line ++ chunk) (hlen : (line ++ chunk).length < bufSize) {fuel : ℕ}
    (hfuel : chunk.length ≤ fuel) : ∃ out p, printLines pattern fuel (line ++ chunk) = (out, p) ∧
      OneLine p ∧ 0 ∉ p ∧ p.length < bufSize ∧
      printFrom pattern line (chunk ++ rest) = out ++ printFrom pattern p rest := by
  induction chunk generalizing line fuel with
  | nil =>
    rw [List.append_nil] at h0 hlen ⊢
    refine ⟨[], line, ?_, hline, h0, hlen, rfl⟩
    cases fuel with
    | zero => rfl
    | succ fuel => rw [printLines, strchr_oneLine hline]
  | cons c chunk ih =>
    rw [List.append_cons] at h0 hlen
    have hfit : line.length + 1 ≠ bufSize := by
      simp only [List.length_append, List.length_singleton] at hlen
      omega
    by_cases hc : c = newline
    · subst hc
      cases fuel with
      | zero => exact absurd hfuel (Nat.not_succ_le_zero _)
      | succ fuel =>
        have hline0 : 0 ∉ line := fun h =>
          h0 (List.mem_append_left _ (List.mem_append_left _ h))
        obtain ⟨out, p, hrun, hp, hp0, hplen, hout⟩ := ih oneLine_nil
          (fun h => h0 (List.mem_append_right _ h)) (by simp at hlen ⊢; omega)
          (Nat.le_of_succ_le_succ hfuel)
        rw [List.nil_append] at hrun
        have hstep : printLines pattern (fuel + 1) (line ++ newline :: chunk) =
            ((if matchText pattern line then line ++ [newline] else []) ++ out, p) := by
          rw [printLines, strchr_append hline hline0]
          simp only [hrun]
        refine ⟨_, p, hstep, hp, hp0, hplen, ?_⟩
        rw [List.cons_append, printFrom, if_neg hfit, if_pos rfl, hout, List.append_assoc]
    · obtain ⟨out, p, hrun, hp, hp0, hplen, hout⟩ := ih (oneLine_snoc hline hc) h0 hlen
        (Nat.le_of_succ_le hfuel)
      refine ⟨out, p, by rw [List.append_cons, hrun], hp, hp0, hplen, ?_⟩
      rw [List.cons_append, printFrom, if_neg hfit, if_neg hc, hout]

theorem readCount_eq_zero {want max left : ℕ} (h : readCount want max left = 0) :
    max = 0 ∨ left = 0 := by
  simp only [readCount, Nat.min_def, Nat.max_def] at h
  split_ifs at h <;> omega

theorem readCount_le (want max left : ℕ) :
    readCount want max left ≤ max ∧ readCount want max left ≤ left := by
  have h : readCount want max left ≤ Nat.min max left := Nat.min_le_right _ _
  exact ⟨Nat.le_trans h (Nat.min_le_left _ _), Nat.le_trans h (Nat.min_le_right _ _)⟩

theorem grepLoop_eq (want : ℕ → ℕ) {buf rest : List UInt8} (hbuf : OneLine buf)
    (hlen : buf.length < bufSize) (h0 : 0 ∉ buf ++ rest) {fuel : ℕ} (hfuel : rest.length < fuel)
    (j : ℕ) : grepLoop pattern want fuel j buf rest = printFrom pattern buf rest := by
  induction fuel generalizing j buf rest with
  | zero => exact absurd hfuel (Nat.not_lt_zero _)
  | succ fuel ih =>
    rw [grepLoop]
    dsimp only
    obtain ⟨hmax, hleft⟩ := readCount_le (want j) (bufSize - buf.length - 1) rest.length
    generalize hn : readCount (want j) (bufSize - buf.length - 1) rest.length = n at hmax hleft
    split
    · next hz =>
      -- the file is at its end, or the buffer is full
      cases rest with
      | nil => rfl
      | cons c rest =>
        have := (readCount_eq_zero (hn.trans hz)).resolve_right (Nat.succ_ne_zero _)
        rw [printFrom, if_pos (by omega)]
    · next hz =>
      have hsplit : buf ++ rest = buf ++ rest.take n ++ rest.drop n := by
        rw [List.append_assoc, List.take_append_drop]
      rw [hsplit] at h0
      have hsize : (buf ++ rest.take n).length < bufSize := by
        rw [List.length_append, List.length_take]
        omega
      have hfuel : (rest.take n).length ≤ (buf ++ rest.take n).length := by simp
      obtain ⟨out, p, hrun, hp, hp0, hplen, hout⟩ := printFrom_append pattern (rest.drop n) hbuf
        (fun h => h0 (List.mem_append_left _ h)) hsize hfuel
      rw [hrun, ← List.take_append_drop n rest, hout, List.take_append_drop]
      refine congrArg (out ++ ·) (ih hp hplen ?_ ?_ (j + 1))
      · intro h
        rcases List.mem_append.mp h with h | h
        · exact hp0 h
        · exact h0 (List.mem_append_right _ h)
      · rw [List.length_drop]
        omega

def Fits (line : List UInt8) : Prop := newline ∈ line ∧ line.length < bufSize

instance (line : List UInt8) : Decidable (Fits line) := inferInstanceAs (Decidable (_ ∧ _))

/-- No line fits that starts with a full buffer, or that has no newline. -/
theorem takeWhile_fits_eq_nil {line s : List UInt8} (hline : OneLine line)
    (h : s = [] ∨ line.length + 1 = bufSize) :
    (linesOf (line ++ s)).takeWhile (fun l => decide (Fits l)) = [] := by
  by_cases hne : line = []
  · rcases h with rfl | h
    · rw [hne]
      rfl
    · rw [hne] at h
      cases h
  · obtain ⟨r, lines, heq, hr⟩ := linesOf_eq_cons hline hne s
    rw [heq, List.takeWhile_cons, if_neg]
    rw [decide_eq_true_eq]
    rintro ⟨hmem, hlt⟩
    have hmem' : newline ∈ r := (List.mem_append.mp hmem).resolve_left hline
    have hpos := List.length_pos_of_mem hmem'
    rw [List.length_append] at hlt
    rcases h with rfl | h
    · rw [hr rfl] at hmem'
      cases hmem'
    · omega

theorem printFrom_eq {line : List UInt8} (hline : OneLine line) (hlen : line.length < bufSize)
    (s : List UInt8) : printFrom pattern line s = (((linesOf (line ++ s)).takeWhile
      fun l => decide (Fits l)).filter fun l => matchText pattern (textOf l)).flatten := by
  induction s generalizing line with
  | nil =>
    rw [takeWhile_fits_eq_nil hline (.inl rfl)]
    rfl
  | cons c s ih =>
    rw [printFrom]
    split
    · next hfull =>
      rw [takeWhile_fits_eq_nil hline (.inr hfull)]
      rfl
    · next hfit =>
      have hlen' : (line ++ [c]).length < bufSize := by
        rw [List.length_append, List.length_singleton]
        omega
      split
      · next hc =>
        subst hc
        have hfits : Fits (line ++ [newline]) := ⟨by simp, hlen'⟩
        rw [linesOf_append hline, List.takeWhile_cons, if_pos (decide_eq_true hfits),
          List.filter_cons, textOf_append hline, ih oneLine_nil (by decide)]
        split <;> rfl
      · next hc =>
        rw [ih (oneLine_snoc hline hc) hlen', List.append_assoc]
        rfl

end

/-! ## The lines that are not printed -/

theorem forall_split_cons {α : Type} {x : α} {L : List α} {P : List α → α → Prop} :
    (∀ pre l post, x :: L = pre ++ l :: post → P pre l) ↔
      P [] x ∧ ∀ pre l post, L = pre ++ l :: post → P (x :: pre) l := by
  constructor
  · intro h
    exact ⟨h [] x L rfl, fun pre l post hL => h (x :: pre) l post (by rw [hL]; rfl)⟩
  · rintro ⟨hx, h⟩ pre l post hL
    cases pre with
    | nil =>
      obtain ⟨rfl, -⟩ := List.cons.inj hL
      exact hx
    | cons y pre =>
      obtain ⟨rfl, hL'⟩ := List.cons.inj hL
      exact h pre l post hL'

/-- Leaving out the lines from the first bad one on makes no difference. -/
theorem flatten_takeWhile_iff {good m : List UInt8 → Bool} {L : List (List UInt8)}
    (hne : ∀ l ∈ L, l ≠ []) :
    ((L.takeWhile good).filter m).flatten = (L.filter m).flatten ↔
      ∀ pre l post, L = pre ++ l :: post → m l = true → ∀ k ∈ l :: pre, good k = true := by
  induction L with
  | nil => simp
  | cons x L ih =>
    obtain ⟨hx, hne'⟩ := List.forall_mem_cons.mp hne
    rw [forall_split_cons]
    by_cases hgood : good x = true
    · rw [List.takeWhile_cons, if_pos hgood]
      have hkeep : ((x :: L.takeWhile good).filter m).flatten = ((x :: L).filter m).flatten ↔
          ((L.takeWhile good).filter m).flatten = (L.filter m).flatten := by
        by_cases hm : m x = true <;> simp [hm]
      rw [hkeep, ih hne']
      simp [hgood]
    · rw [List.takeWhile_cons, if_neg hgood]
      have hnone : ((x :: L).filter m).flatten = [] ↔ ∀ l ∈ x :: L, ¬ m l = true := by
        rw [List.flatten_eq_nil_iff]
        constructor
        · intro h l hl hm
          exact hne l hl (h l (List.mem_filter.mpr ⟨hl, hm⟩))
        · intro h l hl
          exact absurd (List.mem_filter.mp hl).2 (h l (List.mem_filter.mp hl).1)
      rw [List.filter_nil, List.flatten_nil, eq_comm, hnone, List.forall_mem_cons]
      refine and_congr ?_ ?_
      · simp [hgood]
      · constructor
        · intro h pre l post hL hm
          exact absurd hm (h l (hL ▸ List.mem_append_right _ List.mem_cons_self))
        · intro h l hl hm
          obtain ⟨pre, post, hL⟩ := List.append_of_mem hl
          exact hgood (h pre l post hL hm x (List.mem_cons_of_mem _ List.mem_cons_self))

/-- Up to the last matching line, all lines fit. -/
def AllFit (pattern file : List UInt8) : Prop :=
  ∀ pre line post, linesOf file = pre ++ line :: post → matchText pattern (textOf line) = true →
    ∀ l ∈ line :: pre, Fits l

/-- However the file comes in, `grep` ends; and it prints the matching lines and no others exactly
if each of them ends with a newline and neither it nor a line before it is too long for the buffer.
-/
theorem grep_prints_matching_iff (pattern file : List UInt8) (want : ℕ → ℕ) (h0 : 0 ∉ file)
    {fuel : ℕ} (hfuel : file.length < fuel) :
    grep pattern want file fuel = matching pattern file ↔ AllFit pattern file := by
  rw [grep, grepLoop_eq want List.not_mem_nil (by decide) h0 hfuel 0,
    printFrom_eq List.not_mem_nil (by decide), List.nil_append, matching,
    flatten_takeWhile_iff linesOf_ne_nil]
  simp only [AllFit, decide_eq_true_eq]

theorem grep_prints_matching_iff_line : AllFit [97] [97, newline, 98] :=
  (grep_prints_matching_iff [97] [97, newline, 98] (fun _ => 2) (by decide)
    (by decide : 3 < 4)).mp (by decide)

theorem grep_skips_last_line : 0 ∉ [(97 : UInt8)] ∧ [(97 : UInt8)].length < 2 ∧
    grep [97] (fun _ => 1) [97] 2 = [] ∧ matching [97] [97] = [97] := by
  decide

end Xv6.User.Grep
