import Xv6.File.Table
import Xv6.Fs.Alloc
import Xv6.Fs.Files

/-! # Writing to an open file

`filewrite` of `kernel/file.c` on an inode cuts a write into pieces that fit into a transaction. On
the content of the file the pieces are one write.
-/

namespace Xv6.Fs
set_option autoImplicit false
open Function (update update_self update_idem)
open Prog (wp_bind)

/-- `max` of `filewrite`. -/
def writeMax : ℕ := (MAXOPBLOCKS - 1 - 1 - 2) / 2 * BSIZE

/-- A call of `writei` in the loop of `filewrite`: the bytes it was asked to write, and what it has
returned. -/
structure Chunk where
  n1 : ℕ
  r : ℤ

section
variable (sb : Superblock)

/-- The loop of `filewrite` with its `i` and `f->off`, and as ghost data the calls of `writei`;
`fuel` bounds the number of iterations. -/
def filewriteLoop (f : File) (src : ℕ → UInt8) (copyin : ℕ → Option ℕ) (n : ℕ) :
    ℕ → ℕ → ℕ → FsProg (ℕ × ℕ × List Chunk)
  | 0, i, off => return (i, off, [])
  | fuel + 1, i, off => do
    if i < n then
      let n1 := min (n - i) writeMax
      ilock sb f.ip
      let r ← writei sb f.ip (fun j => src (i + j)) (fun j => copyin (i + j)) off n1
      let off := if r > 0 then off + r.toNat else off
      iunlock f.ip
      if r ≠ n1 then return (i, off, [⟨n1, r⟩])
      else
        let (i, off, cs) ← filewriteLoop f src copyin n fuel (i + n1) off
        return (i, off, ⟨n1, r⟩ :: cs)
    else return (i, off, [])

/-- `filewrite`, with the calls of `writei` it makes; `other` is the write to a pipe or to a
device. -/
def filewrite (f : File) (src : ℕ → UInt8) (copyin : ℕ → Option ℕ) (n : ℤ) (other : FsProg ℤ) :
    FsProg (ℤ × File × List Chunk) := do
  if f.writable = false then return (-1, f, [])
  else
    match f.type with
    | .inode =>
      let (i, off, cs) ← filewriteLoop sb f src copyin n.toNat n.toNat 0 f.off
      return (if i = n then n else -1, { f with off := off }, cs)
    | .none => .fail (.panic "filewrite")
    | _ => do return (← other, f, [])

end

/-! ## The pieces -/

theorem splice_nil (l : List UInt8) (off : ℕ) : splice l off [] = l := by
  rw [splice, List.append_nil, List.length_nil, Nat.add_zero, List.take_append_drop]

theorem splice_splice {l a b : List UInt8} {off : ℕ} (hoff : off ≤ l.length) :
    splice (splice l off a) (off + a.length) b = splice l off (a ++ b) := by
  have hlen : (l.take off ++ a).length = off + a.length := by
    rw [List.length_append, List.length_take, Nat.min_eq_left hoff]
  rw [splice, splice, List.take_left' hlen, ← List.drop_drop, List.drop_left' hlen, List.drop_drop,
    splice, List.length_append, List.append_assoc (l.take off), Nat.add_assoc]

section
variable {sb : Superblock} {h : InodeId → ℕ} {k : InodeId} {s s1 s' : State} {E : Failure → Prop}
  {src : ℕ → UInt8} {off m n tot lim : ℕ}

/-- The first `tot` bytes of `src` are written to the file at `off`. -/
structure Splices (sb : Superblock) (h : InodeId → ℕ) (k : InodeId) (src : ℕ → UInt8)
    (off tot : ℕ) (s s' : State) : Prop where
  core : Core sb (sb.dinode s'.disk) h s'
  valid : (s'.inode k).valid = true
  inum : (s'.inode k).inum = (s.inode k).inum
  content : (s'.files sb).content = update (s.files sb).content (s.inode k).inum
    (splice ((s.files sb).content (s.inode k).inum) off ((List.range tot).map src))

theorem Splices.nothing (hc : Core sb (sb.dinode s.disk) h s) (hvalid : (s.inode k).valid = true) :
    Splices sb h k src off 0 s s where
  core := hc
  valid := hvalid
  inum := rfl
  content := by rw [List.range_zero, List.map_nil, splice_nil, Function.update_eq_self]

/-- Two writes, the second where the first has ended. -/
theorem Splices.trans (hstart : off ≤ ((s.files sb).content (s.inode k).inum).length)
    (h1 : Splices sb h k src off m s s1)
    (h2 : Splices sb h k (fun j => src (m + j)) (off + m) tot s1 s') :
    Splices sb h k src off (m + tot) s s' := by
  refine ⟨h2.core, h2.valid, h2.inum.trans h1.inum, ?_⟩
  have hmid : (s1.files sb).content (s1.inode k).inum =
      splice ((s.files sb).content (s.inode k).inum) off ((List.range m).map src) := by
    rw [h1.inum, h1.content, update_self]
  have hjoin := splice_splice hstart (a := (List.range m).map src)
    (b := (List.range tot).map fun j => src (m + j))
  rw [List.length_map, List.length_range, ← hmid] at hjoin
  rw [h2.content, hjoin, h1.inum, h1.content, update_idem, List.range_add, List.map_append,
    List.map_map]
  rfl

theorem Splices.size (hs : Splices sb h k src off tot s s') (hpos : 0 < h k) :
    (s'.inode k).copy.size =
      (splice ((s.files sb).content (s.inode k).inum) off ((List.range tot).map src)).length := by
  rw [← hs.core.length_content hpos hs.valid, hs.inum, hs.content, update_self]

theorem Written.splices (hw : Written sb k src (fun _ => none) off n tot lim s s1)
    (hc : Core sb (sb.dinode s.disk) h s) (hpos : 0 < h k) (hvalid : (s.inode k).valid = true)
    (hc1 : Core sb (sb.dinode s1.disk) h s1) (hf : Frame sb k s s1) :
    Splices sb h k src off tot s s1 := by
  refine ⟨hc1, (hf.valid k).1.trans hvalid, (hf.valid k).2, ?_⟩
  rw [content_after hc hpos hvalid hc1 hf, hw.bytes_eq, hc.content_eq hpos hvalid]

theorem Splices.of_writei (L : sb.Layout) (hc : Core sb (sb.dinode s.disk) h s) (hpos : 0 < h k)
    (hvalid : (s.inode k).valid = true)
    (hok : writei sb k src (fun _ => none) off n s = .ok ((n : ℤ), s')) :
    Splices sb h k src off n s s' := by
  have hwp : (writei sb k src (fun _ => none) off n).wp (fun _ => False)
      (fun r s' => r = n → Splices sb h k src off n s s') s := by
    refine wp_writei L hc hpos hvalid (fun _ hr => by omega) ?_
    intro tot lim s1 hc1 hf hw hr
    obtain rfl : tot = n := by omega
    exact hw.splices hc hpos hvalid hc1 hf
  exact hwp.ensures.of_ok hok rfl

/-! ## The loop -/

theorem wp_filewriteLoop (L : sb.Layout) {f : File} {i fuel : ℕ}
    (hc : Core sb (sb.dinode s.disk) h s) (hpos : 0 < h f.ip)
    (hvalid : (s.inode f.ip).valid = true) (hi : i ≤ n) (hfuel : n - i ≤ fuel) :
    (filewriteLoop sb f src (fun _ => none) n fuel i off).wp E (fun r s' => ∃ tot,
      Splices sb h f.ip (fun j => src (i + j)) off tot s s' ∧ r.2.1 = off + tot ∧
        (r.1 = n ↔ tot = n - i) ∧ (r.1 = n ↔ ∀ c ∈ r.2.2, c.r = c.n1)) s := by
  induction fuel generalizing s i off with
  | zero =>
    have hend : i = n := by omega
    exact ⟨0, .nothing hc hvalid, rfl, by dsimp only; omega, by simp [hend]⟩
  | succ fuel ih =>
    unfold filewriteLoop
    by_cases hlt : i < n
    · rw [if_pos hlt, wp_bind]
      generalize hn1 : min (n - i) writeMax = n1
      have hn1 : 0 < n1 ∧ n1 ≤ n - i := by
        have : 0 < writeMax := by decide
        omega
      -- a chunk that is not complete is the last one
      have hlast : ∀ r : ℤ, r ≠ n1 → (i = n ↔ ∀ c ∈ [Chunk.mk n1 r], c.r = c.n1) := by
        intro r hr
        simp only [List.mem_singleton, forall_eq, hr, hlt.ne]
      refine wp_ilock_valid hc hpos hvalid ?_
      rw [wp_bind]
      refine wp_writei L hc hpos hvalid (fun _ => ?_) ?_
      · rw [wp_bind]
        refine wp_iunlock hc hpos ?_
        rw [if_pos (by omega)]
        exact ⟨0, .nothing hc hvalid, rfl, by dsimp only; omega, hlast (-1) (by omega)⟩
      · intro tot lim s1 hc1 hf hw
        have h1 := hw.splices hc hpos hvalid hc1 hf
        have hle := hw.le
        have hoff : (if (tot : ℤ) > 0 then off + (tot : ℤ).toNat else off) = off + tot := by
          split <;> omega
        rw [wp_bind]
        refine wp_iunlock hc1 hpos ?_
        rw [hoff]
        by_cases htot : tot = n1
        · rw [if_neg (by omega), wp_bind]
          subst htot
          refine (ih hc1 h1.valid (by omega) (by omega)).mono ?_
          rintro ⟨j, off', cs⟩ s' ⟨tot', h2, hr, hall, hcs⟩
          have hstart := hw.start.trans_eq (hc.length_content hpos hvalid).symm
          refine ⟨tot + tot', h1.trans hstart ?_, ?_, ?_, ?_⟩
          · simpa only [Nat.add_assoc] using h2
          · dsimp only at hr ⊢
            omega
          · dsimp only at hall ⊢
            omega
          · simpa using hcs
        · rw [if_pos (by omega)]
          exact ⟨tot, h1, rfl, by dsimp only; omega, hlast tot (by omega)⟩
    · rw [if_neg hlt]
      have hend : i = n := by omega
      exact ⟨0, .nothing hc hvalid, rfl, by dsimp only; omega, by simp [hend]⟩

/-- A write of `n` bytes to an open file returns, and it returns `n` just when every `writei` it has
called has written all it was asked to. Then the bytes are in the file from the old offset on and
the offset is behind them, as after one `writei` of all the bytes. -/
theorem filewrite_is_one_write (L : sb.Layout) {f : File} (hc : Core sb (sb.dinode s.disk) h s)
    (hpos : 0 < h f.ip) (hvalid : (s.inode f.ip).valid = true) (hf : f.type = .inode)
    (hwritable : f.writable = true) (src : ℕ → UInt8) (n : ℕ) (other : FsProg ℤ) :
    ∃ (r : ℤ) (f' : File) (cs : List Chunk) (s' : State),
      filewrite sb f src (fun _ => none) n other s = .ok ((r, f', cs), s') ∧
      (r = n ↔ ∀ c ∈ cs, c.r = c.n1) ∧
      (r = n → f' = { f with off := f.off + n } ∧
        (s'.files sb).content = update (s.files sb).content (s.inode f.ip).inum
          (splice ((s.files sb).content (s.inode f.ip).inum) f.off ((List.range n).map src)) ∧
        ∀ s₁, writei sb f.ip src (fun _ => none) f.off n s = .ok ((n : ℤ), s₁) →
          (s'.files sb).content = (s₁.files sb).content ∧
            (s'.inode f.ip).copy.size = (s₁.inode f.ip).copy.size) := by
  have hwp : (filewrite sb f src (fun _ => none) n other).wp (fun _ => False) (fun r s' => ∃ tot,
      Splices sb h f.ip src f.off tot s s' ∧ r.1 = (if tot = n then (n : ℤ) else -1) ∧
        r.2.1 = { f with off := f.off + tot } ∧ (tot = n ↔ ∀ c ∈ r.2.2, c.r = c.n1)) s := by
    simp only [filewrite, hwritable, hf, Bool.true_eq_false, if_false, wp_bind, Int.toNat_natCast]
    refine (wp_filewriteLoop L hc hpos hvalid (Nat.zero_le n) le_rfl).mono ?_
    rintro ⟨i, off, cs⟩ s' ⟨tot, hs, rfl, hall, hcs⟩
    simp only [Nat.sub_zero] at hall
    refine ⟨tot, by simpa only [Nat.zero_add] using hs, ?_, rfl, ?_⟩
    · simp only [Nat.cast_inj, hall]
    · rw [← hall]
      exact hcs
  obtain ⟨⟨r, f', cs⟩, s', hrun, tot, hs, hr, hf', hcs⟩ := hwp.returns
  have hall : r = n ↔ tot = n := by
    dsimp only at hr
    split at hr <;> omega
  refine ⟨r, f', cs, s', hrun, hall.trans hcs, fun hrn => ?_⟩
  obtain rfl := hall.mp hrn
  refine ⟨hf', hs.content, fun s₁ hone => ?_⟩
  have h₁ := Splices.of_writei L hc hpos hvalid hone
  exact ⟨hs.content.trans h₁.content.symm, (hs.size hpos).trans (h₁.size hpos).symm⟩

end

/-- The file of three bytes that `fileWritten` has made, open at its end. -/
def openedAtEnd : File := ⟨.inode, 1, true, true, 0, newInode, 3, 0⟩

theorem filewrite_is_one_write_twoChunks : ∃ u f' cs s' s₁, afterWrite = some u ∧
    filewrite smallSb openedAtEnd (fun _ => 105) (fun _ => none) (4000 : ℕ) (pure 0) u.fs =
      .ok ((((4000 : ℕ) : ℤ), f', cs), s') ∧
    cs.map Chunk.n1 = [3072, 928] ∧ (∀ c ∈ cs, c.r = c.n1) ∧ f'.off = 4003 ∧
    writei smallSb newInode (fun _ => 105) (fun _ => none) 3 4000 u.fs =
      .ok (((4000 : ℕ) : ℤ), s₁) ∧
    (s'.files smallSb).content = (s₁.files smallSb).content ∧
    (s'.inode newInode).copy.size = (s₁.inode newInode).copy.size ∧
    (s₁.inode newInode).copy.size = 4003 := by
  have hrun : afterWrite.any (fun u => 0 < u.held newInode ∧
      (u.fs.inode newInode).valid = true ∧
      (filewrite smallSb openedAtEnd (fun _ => 105) (fun _ => none) (4000 : ℕ) (pure 0)
        u.fs).result.any (fun x =>
          x.1.1 = ((4000 : ℕ) : ℤ) ∧ x.1.2.2.map Chunk.n1 = [3072, 928]) = true ∧
      (writei smallSb newInode (fun _ => 105) (fun _ => none) 3 4000 u.fs).result.any (fun x =>
        x.1 = ((4000 : ℕ) : ℤ) ∧ (x.2.inode newInode).copy.size = 4003) = true) = true := by
    decide +kernel
  obtain ⟨u, hu, hfacts⟩ := Option.any_eq_true _ _ |>.1 hrun
  obtain ⟨hpos, hvalid, hchunked, hsingle⟩ := of_decide_eq_true hfacts
  obtain ⟨⟨_, s₁⟩, hone, hfacts⟩ := Option.any_eq_true _ _ |>.1 hsingle
  obtain ⟨rfl, hsize⟩ := of_decide_eq_true hfacts
  have hcore := (calls_wf smallSb_layout (afterWrite_reachable hu)).core
  obtain ⟨r, f', cs, s', hok, hiff, hall⟩ := filewrite_is_one_write smallSb_layout
    (f := openedAtEnd) hcore hpos hvalid rfl rfl (fun _ => 105) 4000 (pure 0)
  rw [hok] at hchunked
  obtain ⟨rfl, hcs⟩ := of_decide_eq_true hchunked
  obtain ⟨rfl, -, hsame⟩ := hall rfl
  obtain ⟨hcontent, hsizes⟩ := hsame s₁ (Outcome.result_eq_some.1 hone)
  exact ⟨u, _, cs, s', s₁, hu, hok, hcs, hiff.1 rfl, rfl, Outcome.result_eq_some.1 hone, hcontent,
    hsizes, hsize⟩

end Xv6.Fs
