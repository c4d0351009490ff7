import Xv6.Fs.Directory
import Xv6.Fs.Image

/-! # Files as lists of bytes

`readi`, `writei` and `itrunc`, called in any order on the inodes that are held, do to the blocks of
the disk what their abstract counterparts do to lists of bytes.
-/

namespace Xv6.Fs

open Function (update update_self update_of_ne)
open Vm (PGSIZE)

set_option autoImplicit false

/-! ## The abstract calls -/

structure Files where
  content : ℕ → List UInt8
  full : Prop

def splice (l : List UInt8) (off : ℕ) (new : List UInt8) : List UInt8 :=
  l.take off ++ new ++ l.drop (off + new.length)

inductive FileCall where
  | read (ip : InodeId) (off n : UInt32)
  | write (ip : InodeId) (src : ℕ → UInt8) (off n : UInt32)
  | trunc (ip : InodeId)

def FileCall.ip : FileCall → InodeId
  | .read ip _ _ | .write ip _ _ _ | .trunc ip => ip

inductive FileResult where
  | read (r : ℤ) (dst : List UInt8)
  | wrote (r : ℤ)
  | truncated

/-- What a call returns and does to the files, where entry `ip` is for inode `inum ip`. -/
inductive FileCall.Meets (inum : InodeId → ℕ) : FileCall → Files → FileResult → Files → Prop
  | read_none {ip : InodeId} {off n : UInt32} {F : Files}
      (h : (F.content (inum ip)).length < off.toNat ∨ 2 ^ 32 ≤ off.toNat + n.toNat) :
      Meets inum (.read ip off n) F (.read 0 []) F
  | read {ip : InodeId} {off n : UInt32} {F : Files}
      (hoff : off.toNat ≤ (F.content (inum ip)).length) (hwrap : off.toNat + n.toNat < 2 ^ 32) :
      Meets inum (.read ip off n) F
        (.read ((min n.toNat ((F.content (inum ip)).length - off.toNat) : ℕ) : ℤ)
          (((F.content (inum ip)).drop off.toNat).take n.toNat)) F
  | write_bad {ip : InodeId} {src : ℕ → UInt8} {off n : UInt32} {F : Files}
      (h : (F.content (inum ip)).length < off.toNat ∨ 2 ^ 32 ≤ off.toNat + n.toNat ∨
        MAXFILE * BSIZE < off.toNat + n.toNat) :
      Meets inum (.write ip src off n) F (.wrote (-1)) F
  | write {ip : InodeId} {src : ℕ → UInt8} {off n : UInt32} {F F' : Files} (tot : ℕ)
      (hoff : off.toNat ≤ (F.content (inum ip)).length) (hwrap : off.toNat + n.toNat < 2 ^ 32)
      (hmax : off.toNat + n.toNat ≤ MAXFILE * BSIZE) (htot : tot ≤ n.toNat)
      (hfull : tot < n.toNat → F'.full)
      (hF : F'.content = update F.content (inum ip)
        (splice (F.content (inum ip)) off.toNat ((List.range tot).map src))) :
      Meets inum (.write ip src off n) F (.wrote tot) F'
  | trunc {ip : InodeId} {F F' : Files} (hF : F'.content = update F.content (inum ip) []) :
      Meets inum (.trunc ip) F .truncated F'

inductive FileCall.Runs (inum : InodeId → ℕ) :
    List FileCall → Files → List FileResult → Files → Prop
  | nil (F : Files) : Runs inum [] F [] F
  | cons {c : FileCall} {cs : List FileCall} {F F' F'' : Files} {r : FileResult}
      {rs : List FileResult} (h : c.Meets inum F r F') (hs : Runs inum cs F' rs F'') :
      Runs inum (c :: cs) F (r :: rs) F''

/-! ## The calls of the kernel -/

section
variable (sb : Superblock)

def FileCall.exec : FileCall → FsProg FileResult
  | .read ip off n => do
    let (r, dst) ← readi sb ip (fun _ => true) off.toNat n.toNat
    return .read r dst
  | .write ip src off n => do
    let r ← writei sb ip src (fun _ => none) off.toNat n.toNat
    return .wrote r
  | .trunc ip => do
    itrunc sb ip
    return .truncated

def FileCall.execAll : List FileCall → FsProg (List FileResult)
  | [] => return []
  | c :: cs => do
    let r ← c.exec sb
    let rs ← execAll cs
    return r :: rs

def content (d : Disk) (i : ℕ) : List UInt8 :=
  if i < sb.ninodes ∧ (sb.dinode d i).type ≠ 0 then
    (sb.dinode d i).bytes d 0 (sb.dinode d i).size
  else []

def State.files (s : State) : Files := ⟨content sb s.disk, Full sb s.disk⟩

end

section
variable {sb : Superblock} {h : InodeId → ℕ} {k : InodeId} {s s' : State} {E : Failure → Prop}

namespace Dinode
variable {d : Disk} {x : Dinode}

@[simp] theorem length_bytes {off n : ℕ} : (x.bytes d off n).length = n := by
  rw [bytes, List.length_map, List.length_range]

theorem getElem?_bytes {n o : ℕ} (ho : o < n) :
    (x.bytes d 0 n)[o]? = some (UInt8.ofNat (x.byte d o)) := by
  rw [bytes, List.getElem?_map, List.getElem?_range ho, Option.map_some, Nat.zero_add]

theorem take_bytes (off m n : ℕ) : (x.bytes d off n).take m = x.bytes d off (min m n) := by
  rw [bytes, ← List.map_take, List.take_range]
  rfl

theorem drop_bytes (off m n : ℕ) : (x.bytes d off n).drop m = x.bytes d (off + m) (n - m) := by
  by_cases hm : m ≤ n
  · obtain ⟨r, rfl⟩ := Nat.exists_eq_add_of_le hm
    rw [bytes_add, List.drop_left' length_bytes, Nat.add_sub_cancel_left]
  · rw [List.drop_of_length_le (by rw [length_bytes]; omega), Nat.sub_eq_zero_of_le (by omega)]
    rfl

end Dinode

theorem Core.content_eq (hc : Core sb (sb.dinode s.disk) h s) (hpos : 0 < h k)
    (hvalid : (s.inode k).valid = true) : (s.files sb).content (s.inode k).inum =
      (s.inode k).copy.bytes s.disk 0 (s.inode k).copy.size := by
  obtain ⟨htype, hcopy⟩ := hc.valid k hpos hvalid
  change content sb s.disk _ = _
  rw [content, if_pos ⟨hc.inum k hpos, htype⟩, hcopy]

theorem Core.length_content (hc : Core sb (sb.dinode s.disk) h s) (hpos : 0 < h k)
    (hvalid : (s.inode k).valid = true) :
    ((s.files sb).content (s.inode k).inum).length = (s.inode k).copy.size := by
  rw [hc.content_eq hpos hvalid, Dinode.length_bytes]

theorem Frame.content (hf : Frame sb k s s') (hb : BlockInv sb (sb.dinode s.disk) s.disk) :
    Fs.content sb s'.disk = update (Fs.content sb s.disk) (s.inode k).inum
      (Fs.content sb s'.disk (s.inode k).inum) := by
  funext j
  by_cases hj : j = (s.inode k).inum
  · rw [hj, update_self]
  · rw [update_of_ne hj, Fs.content, Fs.content]
    by_cases hin : j < sb.ninodes
    · rw [hf.dinode j hin hj]
      by_cases htype : (sb.dinode s.disk j).type ≠ 0
      · rw [if_pos ⟨hin, htype⟩, if_pos ⟨hin, htype⟩]
        refine Dinode.bytes_congr fun o _ ho => ?_
        have hblk : (sb.dinode s.disk j).blk s.disk (o / BSIZE) ≠ 0 := by
          refine hb.full j hin htype _ (lt_of_le_of_lt (Nat.div_mul_le_self _ _) ?_)
          rwa [Nat.zero_add] at ho
        rw [Dinode.byte, Dinode.byte, Dinode.blk, hf.ref j hin hj htype,
          hf.data j hin hj htype _ hblk]
        rfl
      · rw [if_neg fun hand => htype hand.2, if_neg fun hand => htype hand.2]
    · rw [if_neg fun hand => hin hand.1, if_neg fun hand => hin hand.1]

theorem Frame.valid (hf : Frame sb k s s') (j : InodeId) :
    (s'.inode j).valid = (s.inode j).valid ∧ (s'.inode j).inum = (s.inode j).inum := by
  rw [hf.table]
  by_cases hj : j = k
  · rw [hj, update_self]
    exact ⟨rfl, rfl⟩
  · rw [update_of_ne hj]
    exact ⟨rfl, rfl⟩

theorem Frame.content_self (hf : Frame sb k s s') (hpos : 0 < h k)
    (hvalid : (s.inode k).valid = true) (hc' : Core sb (sb.dinode s'.disk) h s') :
    (s'.files sb).content (s.inode k).inum =
      (s'.inode k).copy.bytes s'.disk 0 (s'.inode k).copy.size := by
  have hnew := hc'.content_eq hpos ((hf.valid k).1.trans hvalid)
  rwa [(hf.valid k).2] at hnew

theorem content_after (hc : Core sb (sb.dinode s.disk) h s) (hpos : 0 < h k)
    (hvalid : (s.inode k).valid = true) (hc' : Core sb (sb.dinode s'.disk) h s')
    (hf : Frame sb k s s') : (s'.files sb).content = update (s.files sb).content (s.inode k).inum
      ((s'.inode k).copy.bytes s'.disk 0 (s'.inode k).copy.size) := by
  rw [← hf.content_self hpos hvalid hc']
  exact hf.content hc.blocks

theorem wp_readi_wrap {copyout : ℕ → Bool} {off n : ℕ} {Q : ℤ × List UInt8 → State → Prop}
    (hoff : off < 2 ^ 32) (hn : n < 2 ^ 32)
    (hbad : (s.inode k).copy.size < off ∨ 2 ^ 32 ≤ off + n) (hQ : Q (0, []) s) :
    (readi sb k copyout off n).wp E Q s := by
  simp only [readi, inode, Prog.wp_bind, Prog.wp_read]
  rw [if_pos (by omega)]
  exact hQ

theorem Written.bytes_eq {src : ℕ → UInt8} {off n tot lim : ℕ}
    (hw : Written sb k src (fun _ => none) off n tot lim s s') :
    (s'.inode k).copy.bytes s'.disk 0 (s'.inode k).copy.size =
      splice ((s.inode k).copy.bytes s.disk 0 (s.inode k).copy.size) off
        ((List.range tot).map src) := by
  have hoff := hw.start
  have hlim := hw.stop.lim_eq
  have hsize : (s'.inode k).copy.size = off + tot + ((s.inode k).copy.size - (off + tot)) := by
    rw [hw.copy]
    dsimp only
    omega
  rw [splice, List.length_map, List.length_range, Dinode.take_bytes, Dinode.drop_bytes,
    Nat.min_eq_left hoff, Nat.zero_add, hsize, Dinode.bytes_add, Dinode.bytes_add, Nat.zero_add,
    Nat.zero_add]
  congr 1
  · congr 1
    · exact Dinode.bytes_congr fun o _ ho => hw.kept o (by omega) (by omega)
    · refine List.map_congr_left fun j hj => ?_
      rw [List.mem_range] at hj
      rw [hw.written (off + j) (by omega) (by omega), Nat.add_sub_cancel_left]
      exact UInt8.ofNat_toNat
  · exact Dinode.bytes_congr fun o _ ho => hw.kept o (by omega) (by omega)

/-! ## Refinement -/

structure Called (sb : Superblock) (h : InodeId → ℕ) (c : FileCall) (r : FileResult)
    (s s' : State) :
    Prop where
  core : Core sb (sb.dinode s'.disk) h s'
  valid : ∀ j, (s'.inode j).valid = (s.inode j).valid ∧ (s'.inode j).inum = (s.inode j).inum
  meets : c.Meets (fun k => (s.inode k).inum) (s.files sb) r (s'.files sb)

theorem FileCall.wp_exec (L : sb.Layout) (hc : Core sb (sb.dinode s.disk) h s) (c : FileCall)
    (hpos : 0 < h c.ip) (hvalid : (s.inode c.ip).valid = true) :
    (c.exec sb).wp E (fun r s' => Called sb h c r s s') s := by
  have hcontent := hc.content_eq hpos hvalid
  have hlength := hc.length_content hpos hvalid
  cases c with
  | read ip off n =>
    have hoff := off.toNat_lt
    have hn := n.toNat_lt
    simp only [exec, Prog.wp_bind]
    by_cases hbad : (s.inode ip).copy.size < off.toNat ∨ 2 ^ 32 ≤ off.toNat + n.toNat
    · refine wp_readi_wrap hoff hn hbad ⟨hc, fun _ => ⟨rfl, rfl⟩, .read_none ?_⟩
      exact hbad.imp_left fun hlt => lt_of_eq_of_lt hlength hlt
    · refine (wp_readi_all (hc.copy_size_le hpos hvalid) ?_).mono ?_
      · exact fun o _ _ ho => hc.copy_mapped hpos hvalid ho
      · rintro ⟨r, dst⟩ s' ⟨rfl, hr⟩
        obtain ⟨rfl, rfl⟩ := Prod.mk.inj (hr (by omega))
        refine ⟨hc, fun _ => ⟨rfl, rfl⟩, ?_⟩
        rw [not_or, not_lt] at hbad
        have hmeets : Meets (fun k => (s'.inode k).inum) (.read ip off n) (s'.files sb) _ _ :=
          .read (hbad.1.trans_eq hlength.symm) (by omega)
        simp only [FileCall.ip] at hcontent
        rwa [hcontent, Dinode.length_bytes, Dinode.drop_bytes, Dinode.take_bytes,
          Nat.zero_add] at hmeets
  | write ip src off n =>
    simp only [exec, Prog.wp_bind]
    refine wp_writei L hc hpos hvalid ?_ ?_
    · intro hbad
      refine ⟨hc, fun _ => ⟨rfl, rfl⟩, .write_bad ?_⟩
      exact hbad.imp (fun hlt => lt_of_eq_of_lt hlength hlt) .inr
    · intro tot lim s' hc' hf hw
      have hmax := hw.fits
      have hstart := hw.start
      refine ⟨hc', hf.valid, .write tot (hstart.trans_eq hlength.symm) ?_ hmax hw.le ?_ ?_⟩
      · have : MAXFILE * BSIZE = 274432 := rfl
        omega
      · intro hlt
        cases hw.stop with
        | all hn => exact absurd hn (Nat.ne_of_lt hlt)
        | full hfull => exact hfull
        | bad r hr => cases hr
      · rw [content_after hc hpos hvalid hc' hf, hw.bytes_eq, ← hcontent]
        rfl
  | trunc ip =>
    simp only [exec, Prog.wp_bind]
    refine (wp_itrunc L (hc.dirty hpos hvalid)).mono ?_
    rintro _ s' ⟨hc', hf, hcopy⟩
    refine ⟨hc', hf.valid, .trunc ?_⟩
    rw [content_after hc hpos hvalid hc' hf, hcopy]
    rfl

theorem FileCall.wp_execAll (L : sb.Layout) (hc : Core sb (sb.dinode s.disk) h s)
    (cs : List FileCall)
    (hheld : ∀ c ∈ cs, 0 < h c.ip ∧ (s.inode c.ip).valid = true) :
    (execAll sb cs).wp E (fun rs s' => Core sb (sb.dinode s'.disk) h s' ∧
      Runs (fun k => (s.inode k).inum) cs (s.files sb) rs (s'.files sb) ∧
      ∀ j, (s'.inode j).valid = (s.inode j).valid ∧ (s'.inode j).inum = (s.inode j).inum) s := by
  induction cs generalizing s with
  | nil => exact ⟨hc, .nil _, fun _ => ⟨rfl, rfl⟩⟩
  | cons c cs ih =>
    obtain ⟨hpos, hvalid⟩ := hheld c List.mem_cons_self
    simp only [execAll, Prog.wp_bind, Prog.wp_pure]
    refine (c.wp_exec L hc hpos hvalid).mono ?_
    intro r s1 hr
    have hinum : (fun k => (s1.inode k).inum) = fun k => (s.inode k).inum :=
      funext fun k => (hr.valid k).2
    refine (ih hr.core ?_).mono ?_
    · intro c' hc'
      rw [(hr.valid c'.ip).1]
      exact hheld c' (List.mem_cons_of_mem _ hc')
    · rintro rs s' ⟨hc', hruns, hvalid'⟩
      rw [hinum] at hruns
      exact ⟨hc', .cons hr.meets hruns, fun j =>
        ⟨(hvalid' j).1.trans (hr.valid j).1, (hvalid' j).2.trans (hr.valid j).2⟩⟩

/-- Every sequence of calls on inodes that are held and loaded returns, and what it returns and does
to the files is a run of the abstract calls; the content of an inode has the length that its size
says. -/
theorem file_calls_refine (L : sb.Layout) (hc : Core sb (sb.dinode s.disk) h s) (cs : List FileCall)
    (hheld : ∀ c ∈ cs, 0 < h c.ip ∧ (s.inode c.ip).valid = true) :
    ∃ rs s', FileCall.execAll sb cs s = .ok (rs, s') ∧
      FileCall.Runs (fun k => (s.inode k).inum) cs (s.files sb) rs (s'.files sb) ∧
      ∀ k, 0 < h k → (s'.inode k).valid = true →
        ((s'.files sb).content (s'.inode k).inum).length = (s'.inode k).copy.size := by
  obtain ⟨rs, s', hrun, hc', hruns, -⟩ := (FileCall.wp_execAll L hc cs hheld).returns
  exact ⟨rs, s', hrun, hruns, fun k hpos hvalid => hc'.length_content hpos hvalid⟩

def rootLoaded : State := (State.boot (emptyFs smallSb)).load smallSb bootInode

theorem rootLoaded_wf : Wf smallSb (one bootInode) rootLoaded :=
  (smallSb_image.boot smallSb_layout).load (by decide) (by decide)

theorem rootLoaded_valid : (rootLoaded.inode bootInode).valid = true := rfl

theorem file_calls_refine_root :
    ∃ rs s', FileCall.execAll smallSb
        [.write bootInode (fun _ => 7) 32 3, .read bootInode 30 9, .trunc bootInode] rootLoaded =
          .ok (rs, s') ∧
      FileCall.Runs (fun k => (rootLoaded.inode k).inum)
        [.write bootInode (fun _ => 7) 32 3, .read bootInode 30 9, .trunc bootInode]
        (rootLoaded.files smallSb) rs (s'.files smallSb) := by
  obtain ⟨rs, s', hrun, hruns, -⟩ := file_calls_refine smallSb_layout rootLoaded_wf.core
    [.write bootInode (fun _ => 7) 32 3, .read bootInode 30 9, .trunc bootInode]
    (by simp [FileCall.ip, rootLoaded_valid, one])
  exact ⟨rs, s', hrun, hruns⟩

/-! ## A buffer that is not mapped throughout -/

/-- `copyin` for the piece of a write that starts at `t`, from the user's address `va + t`: it fails
at the first byte whose page is not mapped, after the bytes before it. -/
def copyinFrom (mapped : ℕ → Bool) (va off n t : ℕ) : Option ℕ :=
  (List.range (min (n - t) (BSIZE - (off + t) % BSIZE))).find? fun j =>
    !mapped ((va + t + j) / PGSIZE)

def SameOutside (sb : Superblock) (i off : ℕ) (r : ℤ) (s s' : State) : Prop :=
  ∀ o : ℕ, ¬ (off ≤ o ∧ (o : ℤ) < off + r) →
    (content sb s'.disk i)[o]? = (content sb s.disk i)[o]?

/-- Block `b`, which was not logged, leaves the cache, and is read again as it was in `s`. -/
def State.evict (s s' : State) (b : ℕ) : State := { s' with disk := update s'.disk b (s.disk b) }

def pieceStart (off u : ℕ) : ℕ := (off + u) / BSIZE * BSIZE - off

/-- The bytes of the piece with the first byte that is not mapped, up to that byte, are those that
the file has. -/
def Harmless (sb : Superblock) (k : InodeId) (src : ℕ → UInt8) (mapped : ℕ → Bool) (va off n : ℕ)
    (s : State) : Prop :=
  ∀ u < n, mapped ((va + u) / PGSIZE) = false → (∀ j < u, mapped ((va + j) / PGSIZE) = true) →
    ∀ j, pieceStart off u ≤ j → j < u → off + j < (s.inode k).copy.size →
      (content sb s.disk (s.inode k).inum)[off + j]? = some (src j)

theorem isPiece_pieceStart (off u : ℕ) : IsPiece off (pieceStart off u) := by
  simp only [IsPiece, pieceStart, BSIZE]
  omega

section
variable {src : ℕ → UInt8} {mapped : ℕ → Bool} {va off n tot lim : ℕ}

theorem mapped_of_piece {u : ℕ} (hu : u < n)
    (h : copyinFrom mapped va off n (pieceStart off u) = none) :
    mapped ((va + u) / PGSIZE) = true := by
  have hle : pieceStart off u ≤ u := by
    simp only [pieceStart, BSIZE]
    omega
  have hlt : u - pieceStart off u <
      min (n - pieceStart off u) (BSIZE - (off + pieceStart off u) % BSIZE) := by
    simp only [pieceStart, BSIZE] at hle ⊢
    omega
  have hfound := List.find?_eq_none.mp h _ (List.mem_range.mpr hlt)
  rw [Nat.add_assoc, Nat.add_sub_cancel' hle] at hfound
  simpa using hfound

theorem copyinFrom_eq_some {t r : ℕ} (h : copyinFrom mapped va off n t = some r) :
    r < min (n - t) (BSIZE - (off + t) % BSIZE) ∧ mapped ((va + (t + r)) / PGSIZE) = false ∧
      ∀ j < r, mapped ((va + (t + j)) / PGSIZE) = true := by
  obtain ⟨hr, hmem, hbefore⟩ := List.find?_range_eq_some.mp h
  simp only [← Nat.add_assoc]
  refine ⟨List.mem_range.mp hmem, by simpa using hr, ?_⟩
  intro j hj
  simpa using hbefore j hj

theorem Written.mapped_page (hw : Written sb k src (copyinFrom mapped va off n) off n tot lim s s')
    {u : ℕ}
    (hu : pieceStart off u < tot) (hn : u < n) : mapped ((va + u) / PGSIZE) = true :=
  mapped_of_piece hn (hw.copied _ hu (isPiece_pieceStart off u))

theorem Written.unreported (hw : Written sb k src (copyinFrom mapped va off n) off n tot lim s s')
    (hlt : off + tot < lim) :
    ∃ u < n, lim = off + u ∧ pieceStart off u = tot ∧ mapped ((va + u) / PGSIZE) = false ∧
      ∀ j < u, mapped ((va + j) / PGSIZE) = true := by
  cases hw.stop with
  | all _ hlim => exact absurd hlim (Nat.ne_of_gt hlt)
  | full _ _ hlim => exact absurd hlim (Nat.ne_of_gt hlt)
  | bad r hr htot hlim =>
    obtain ⟨hrm, hr0, hbefore⟩ := copyinFrom_eq_some hr
    rw [Nat.min_eq_left hrm.le] at hlim
    have hpiece : IsPiece off tot := hw.early.resolve_left (Nat.ne_of_lt htot)
    have hstart : pieceStart off (tot + r) = tot := by
      simp only [IsPiece, pieceStart, BSIZE] at hpiece hrm ⊢
      omega
    refine ⟨tot + r, by omega, by omega, hstart, hr0, ?_⟩
    intro j hj
    by_cases hjt : j < tot
    · refine hw.mapped_page ?_ (by omega)
      simp only [pieceStart, BSIZE]
      omega
    · have := hbefore (j - tot) (by omega)
      rwa [Nat.add_sub_cancel' (by omega)] at this

theorem Core.sameOutside_iff (hc : Core sb (sb.dinode s.disk) h s) (hpos : 0 < h k)
    (hvalid : (s.inode k).valid = true) (hoff : off ≤ (s.inode k).copy.size) {x : Dinode}
    (hcontent : content sb s'.disk (s.inode k).inum = x.bytes s'.disk 0 x.size)
    (hsize : x.size = max (s.inode k).copy.size (off + tot)) :
    SameOutside sb (s.inode k).inum off tot s s' ↔
      ∀ o < (s.inode k).copy.size, o < off ∨ off + tot ≤ o →
        UInt8.ofNat (x.byte s'.disk o) = UInt8.ofNat ((s.inode k).copy.byte s.disk o) := by
  have hold : content sb s.disk (s.inode k).inum = _ := hc.content_eq hpos hvalid
  rw [SameOutside, hcontent, hold]
  constructor
  · intro hsame o ho hout
    have := hsame o (by omega)
    rw [Dinode.getElem?_bytes (by omega), Dinode.getElem?_bytes ho] at this
    exact Option.some.inj this
  · intro hsame o hout
    by_cases ho : o < (s.inode k).copy.size
    · rw [Dinode.getElem?_bytes (by omega), Dinode.getElem?_bytes ho, hsame o ho (by omega)]
    · rw [List.getElem?_eq_none (by rw [Dinode.length_bytes]; omega),
        List.getElem?_eq_none (by rw [Dinode.length_bytes]; omega)]

section
variable (hc : Core sb (sb.dinode s.disk) h s) (hpos : 0 < h k) (hvalid : (s.inode k).valid = true)
  (hc' : Core sb (sb.dinode s'.disk) h s') (hf : Frame sb k s s')
  (hw : Written sb k src (copyinFrom mapped va off n) off n tot lim s s')

include hc hpos hvalid hc' hf hw

omit hc' hf in
theorem Written.reached {u : ℕ} (hu : u < n) (hu0 : mapped ((va + u) / PGSIZE) = false)
    (hbefore : ∀ j < u, mapped ((va + j) / PGSIZE) = true)
    (hsize : off + pieceStart off u < (s.inode k).copy.size) :
    tot ≤ pieceStart off u ∧ off + u ≤ lim := by
  have hle : pieceStart off u ≤ u := by
    simp only [pieceStart, BSIZE]
    omega
  have htot : tot ≤ pieceStart off u := by
    by_contra hlt
    rw [hw.mapped_page (not_le.mp hlt) hu] at hu0
    cases hu0
  refine ⟨htot, ?_⟩
  cases hw.stop with
  | all hn => omega
  | full _ hnew => exact absurd hnew (hc.copy_mapped hpos hvalid (by omega))
  | bad r hr _ hlim =>
    obtain ⟨hrm, hr0, -⟩ := copyinFrom_eq_some hr
    rw [Nat.min_eq_left hrm.le] at hlim
    by_contra hlt
    rw [hbefore (tot + r) (by omega)] at hr0
    cases hr0

theorem Written.sameOutside_iff :
    SameOutside sb (s.inode k).inum off tot s s' ↔ Harmless sb k src mapped va off n s := by
  have hold : Fs.content sb s.disk (s.inode k).inum = _ := hc.content_eq hpos hvalid
  have hsize : (s'.inode k).copy.size = max (s.inode k).copy.size (off + tot) := by rw [hw.copy]
  rw [hc.sameOutside_iff hpos hvalid hw.start (hf.content_self hpos hvalid hc') hsize]
  constructor
  · intro hsame u hu hu0 hbefore j hj hju hjs
    obtain ⟨htot, hlim⟩ := hw.reached hc hpos hvalid hu hu0 hbefore (by omega)
    rw [hold, Dinode.getElem?_bytes hjs, ← hsame _ hjs (by omega),
      hw.written _ (by omega) (by omega),
      Nat.add_sub_cancel_left, UInt8.ofNat_toNat]
  · intro hharm o ho hout
    by_cases hlim : o < off ∨ lim ≤ o
    · rw [hw.kept o ho hlim]
    · obtain ⟨u, hu, rfl, hstart, hu0, hbefore⟩ := hw.unreported (by omega)
      have := hharm u hu hu0 hbefore (o - off) (by omega) (by omega) (by omega)
      rw [Nat.add_sub_cancel' (by omega), hold, Dinode.getElem?_bytes ho] at this
      rw [hw.written o (by omega) (by omega), UInt8.ofNat_toNat, Option.some.inj this]

theorem Written.sameOutside_evict (L : sb.Layout)
    (hb : (s.inode k).copy.blk s.disk ((off + tot) / BSIZE) ≠ 0) :
    SameOutside sb (s.inode k).inum off tot s
      (s.evict s' ((s.inode k).copy.blk s.disk ((off + tot) / BSIZE))) := by
  have hvalid' := (hf.valid k).1.trans hvalid
  have hb' := hw.blk _ hb
  generalize hbn : (off + tot) / BSIZE = bn at *
  obtain ⟨-, -, -, hbyte⟩ := (hc'.dirty hpos hvalid').write L
    (hb'.trans_ne hb : (s'.inode k).copy.blk s'.disk bn ≠ 0)
    (s.disk ((s.inode k).copy.blk s.disk bn))
  rw [hb'] at hbyte
  obtain ⟨htype, hcopy⟩ := hc'.valid k hpos hvalid'
  have hlt := hc'.inum k hpos
  have hdata : sb.datastart ≤ (s.inode k).copy.blk s.disk bn := by
    rw [← hb', hcopy] at hb ⊢
    exact (hc'.blocks.of_ref hlt htype hb).1.1
  have hsize : (s'.inode k).copy.size = max (s.inode k).copy.size (off + tot) := by rw [hw.copy]
  refine (hc.sameOutside_iff hpos hvalid hw.start ?_ hsize).2 ?_
  · rw [← (hf.valid k).2, content, State.evict, L.dinode_update _ hlt hdata,
      if_pos ⟨hlt, htype⟩, ← hcopy]
  · intro o ho hout
    congr 1
    refine (hbyte o (hc'.copy_mapped hpos hvalid' (by omega))).trans ?_
    split
    · next heq => rw [Dinode.byte, heq]
    · next hne =>
      -- the failed copy stays within its block
      have hlim : lim ≤ off + tot + (BSIZE - (off + tot) % BSIZE) := by
        cases hw.stop <;> omega
      refine hw.kept o ho ?_
      simp only [BSIZE] at hbn hne hlim
      omega

end

/-- A write from a buffer with pages that are not mapped returns. What it returns covers all that
has changed in the file, with the block of the failed copy in the cache or evicted from it, if and
only if the bytes that the failed copy has left in the block are those that the file has. -/
theorem write_reports_changes_iff (L : sb.Layout) (hc : Core sb (sb.dinode s.disk) h s)
    (hpos : 0 < h k)
    (hvalid : (s.inode k).valid = true) (src : ℕ → UInt8) (mapped : ℕ → Bool) (va off n : ℕ) :
    ∃ r s', writei sb k src (copyinFrom mapped va off n) off n s = .ok (r, s') ∧
      ((SameOutside sb (s.inode k).inum off r s s' ∧
        (r < n → (s.inode k).copy.blk s.disk ((off + r.toNat) / BSIZE) ≠ 0 →
          SameOutside sb (s.inode k).inum off r s
            (s.evict s' ((s.inode k).copy.blk s.disk ((off + r.toNat) / BSIZE))))) ↔
        (off ≤ (s.inode k).copy.size → off + n ≤ MAXFILE * BSIZE →
          Harmless sb k src mapped va off n s)) := by
  refine Prog.wp.returns (wp_writei L hc hpos hvalid ?_ ?_)
  · intro hbad
    refine iff_of_true ⟨fun _ _ => rfl, fun _ _ o _ => ?_⟩ fun h1 h2 => by omega
    rw [State.evict, Function.update_eq_self]
  · intro tot lim s' hc' hf hw
    constructor
    · exact fun hsame _ _ => (hw.sameOutside_iff hc hpos hvalid hc' hf).1 hsame.1
    · intro hharm
      refine ⟨(hw.sameOutside_iff hc hpos hvalid hc' hf).2 (hharm hw.start hw.fits), ?_⟩
      exact fun _ hb => hw.sameOutside_evict hc hpos hvalid hc' hf L hb

/-- Two bytes are written to the root directory from the last byte of a page, and the next page is
not mapped; the first one is what the directory has there. -/
theorem write_reports_changes_iff_halfMapped :
    ∃ s', writei smallSb bootInode (fun j => if j = 0 then 1 else 9)
        (copyinFrom (· == 0) (PGSIZE - 1) 0 2) 0 2 rootLoaded = .ok (0, s') ∧
      SameOutside smallSb ROOTINO 0 0 rootLoaded s' := by
  obtain ⟨r, s', hrun, hiff⟩ := write_reports_changes_iff smallSb_layout rootLoaded_wf.core
    (by decide) rootLoaded_valid (fun j => if j = 0 then 1 else 9) (· == 0) (PGSIZE - 1) 0 2
  have hr : (writei smallSb bootInode (fun j => if j = 0 then 1 else 9)
      (copyinFrom (· == 0) (PGSIZE - 1) 0 2) 0 2 rootLoaded).result.map Prod.fst = some 0 := by
    decide +kernel
  rw [hrun] at hr
  obtain rfl : r = 0 := Option.some.inj hr
  have hharm : Harmless smallSb bootInode (fun j => if j = 0 then 1 else 9) (· == 0)
    (PGSIZE - 1) 0 2
      rootLoaded := by
    intro u hu _ _ j _ hj _
    obtain rfl : j = 0 := by omega
    show (content smallSb rootLoaded.disk (rootLoaded.inode bootInode).inum)[0]? = some 1
    decide +kernel
  exact ⟨s', hrun, (hiff.2 fun _ _ => hharm).1⟩

/-- A file has the byte 97. Two bytes 98 are written to it from the last byte of a page, and the
next page is not mapped. The result is 0, but what is read then is 98. -/
theorem write_reports_nothing :
    ((do
      match ← create smallSb bootInode [97] T_FILE 0 0 with
      | none => return none
      | some ip =>
        let _ ← writei smallSb ip (fun _ => 97) (fun _ => none) 0 1
        let old ← readi smallSb ip (fun _ => true) 0 1
        let r ← writei smallSb ip (fun _ => 98) (copyinFrom (· == 0) (PGSIZE - 1) 0 2) 0 2
        let new ← readi smallSb ip (fun _ => true) 0 1
        return some (old, r, new) :
        FsProg (Option ((ℤ × List UInt8) × ℤ × (ℤ × List UInt8)))) (State.boot (emptyFs smallSb))
      ).result.map Prod.fst = some (some ((1, [97]), 0, (1, [98]))) := by
  decide +kernel

end

end
end Xv6.Fs
