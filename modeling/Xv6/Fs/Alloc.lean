import Xv6.Fs.Image
import Xv6.Fs.Names
import Xv6.Lib.TransSys

/-! # The blocks of the files over whole runs

The functions on inodes and names, called in any order by somebody who keeps to the rules for
references: an inode is used only while a reference to it is held. Directories are written through
`create`, `link` and `unlink`.
-/

namespace Xv6.Fs
set_option autoImplicit false
open Prog (wp_bind wp_pure)

inductive Call where
  | namei (cwd : InodeId) (path : List UInt8)
  | idup (ip : InodeId)
  | iput (ip : InodeId)
  | ialloc (type : BitVec 16)
  | readi (ip : InodeId) (copyout : ℕ → Bool) (off n : ℕ)
  | writei (ip : InodeId) (src : ℕ → UInt8) (copyin : ℕ → Option ℕ) (off n : ℕ)
  | itrunc (ip : InodeId)
  | create (cwd : InodeId) (path : List UInt8) (type major minor : BitVec 16)
  | link (cwd : InodeId) (old new : List UInt8)
  | unlink (cwd : InodeId) (path : List UInt8)

structure Session where
  fs : State
  held : InodeId → ℕ

namespace Call

def uses : Call → Option InodeId
  | .namei k _ | .idup k | .iput k | .readi k _ _ _ | .writei k _ _ _ _ | .itrunc k
  | .create k _ _ _ _ | .link k _ _ | .unlink k _ => some k
  | .ialloc _ => none

def prog (sb : Superblock) (h : InodeId → ℕ) : Call → FsProg (InodeId → ℕ)
  | .namei cwd path => do
    let r ← Fs.namei sb cwd path
    return h + refs r
  | .idup ip => do
    let k ← Fs.idup ip
    return h + one k
  | .iput ip => do
    Fs.iput sb ip
    return h - one ip
  | .ialloc type => do
    let r ← Fs.ialloc sb ROOTDEV type
    return h + refs r
  | .readi ip copyout off n => do
    ilock sb ip
    let _ ← Fs.readi sb ip copyout off n
    iunlock ip
    return h
  | .writei ip src copyin off n => do
    ilock sb ip
    let x ← inode ip
    if x.copy.type ≠ T_DIR then
      let _ ← Fs.writei sb ip src copyin off n
    iunlock ip
    return h
  | .itrunc ip => do
    ilock sb ip
    Fs.itrunc sb ip
    iunlock ip
    return h
  | .create cwd path type major minor => do
    let r ← Fs.create sb cwd path type major minor
    return h + refs r
  | .link cwd old new => do
    let _ ← Fs.link sb cwd old new
    return h
  | .unlink cwd path => do
    let _ ← Fs.unlink sb cwd path
    return h

def step (sb : Superblock) (u : Session) (c : Call) : Outcome Failure Session :=
  if ∀ k, c.uses = some k → 0 < u.held k then
    (c.prog sb u.held u.fs).bind fun r => .ok ⟨r.2, r.1⟩
  else .blocked

end Call

/-- Any sequence of calls, from an image in which the blocks are allocated as they should be. -/
def calls (sb : Superblock) : TransSys Session Call where
  init u := ∃ d, Image sb d ∧ u = ⟨State.boot d, one bootInode⟩
  step u c u' := c.step sb u = .ok u'

/-! ## Every call keeps the file system well-formed -/

section
variable {sb : Superblock} {h : InodeId → ℕ} {k : InodeId} {s : State} {E : Failure → Prop}

def NotFreeing (e : Failure) : Prop := e ≠ .panic "freeing free block"

theorem lenient_notFreeing : Lenient NotFreeing := by
  intro msg hmsg heq
  exact hmsg (Failure.panic.inj heq)

theorem wp_locked {α : Type} (hw : Wf sb h s) (hpos : 0 < h k) {m : FsProg α}
    (hm : ∀ s', Wf sb h s' → (s'.inode k).valid = true → m.wp NotFreeing (fun _ => Wf sb h) s') :
    (do ilock sb k; let _ ← m; iunlock k; return h : FsProg (InodeId → ℕ)).wp NotFreeing
      (fun g => Wf sb g) s := by
  simp only [wp_bind, wp_pure]
  refine wp_ilock hw.core hpos (fun _ => lenient_notFreeing _ (by decide)) ?_
  intro htype
  refine (hm _ (hw.load hpos htype) (congrArg Inode.valid load_self)).mono ?_
  intro _ s' hw'
  exact wp_iunlock hw'.core hpos hw'

theorem wp_readi_wf (hw : Wf sb h s) (hpos : 0 < h k) (hvalid : (s.inode k).valid = true)
    (copyout : ℕ → Bool) (off n : ℕ) : (readi sb k copyout off n).wp E (fun _ => Wf sb h) s := by
  refine (wp_readi (hw.core.copy_size_le hpos hvalid) ?_).mono ?_
  · exact fun o _ _ ho => hw.core.copy_mapped hpos hvalid ho
  · rintro _ s' ⟨rfl, -⟩
    exact hw

theorem wp_writei_wf (L : sb.Layout) (hw : Wf sb h s) (hpos : 0 < h k)
    (hvalid : (s.inode k).valid = true) (hfile : (s.inode k).copy.type ≠ T_DIR) (src : ℕ → UInt8)
    (copyin : ℕ → Option ℕ) (off n : ℕ) :
    (writei sb k src copyin off n).wp E (fun _ => Wf sb h) s := by
  refine wp_writei L hw.core hpos hvalid (fun _ => hw) ?_
  intro tot lim s' hc hf hwr
  refine ⟨hc, ?_⟩
  -- what is not a directory has no entries
  have hnode := hc.node hpos (by rw [hf.slot]; exact hvalid)
  rw [hf.inum, Dinode.node, if_neg (by rw [hwr.copy]; exact hfile)] at hnode
  rw [hf.nodes (hw.core.dirty hpos hvalid), hnode]
  exact hw.dirs.update fun _ hde => by cases hde

theorem wp_itrunc_wf (L : sb.Layout) (hw : Wf sb h s) (hpos : 0 < h k)
    (hvalid : (s.inode k).valid = true) : (itrunc sb k).wp E (fun _ => Wf sb h) s := by
  have hd := hw.core.dirty hpos hvalid
  refine (wp_itrunc L hd).mono ?_
  rintro _ s' ⟨hc, hf, hcopy⟩
  have hkeep : Keeps h s s' := .of_frame hf
  refine ⟨hc, ?_⟩
  rw [hf.nodes hd, ← hf.inum, hc.node hpos (hkeep.valid k hpos hvalid), hcopy]
  refine hw.dirs.update ?_
  -- a directory without blocks has no entries
  intro de hde
  rw [Dinode.node] at hde
  split at hde
  · rw [Dinode.dents, show (s.inode k).copy.empty.size = 0 from rfl, Nat.zero_div] at hde
    cases hde
  · cases hde

theorem Call.wp_prog (L : sb.Layout) (hw : Wf sb h s) (c : Call)
    (huses : ∀ k, c.uses = some k → 0 < h k) :
    (c.prog sb h).wp NotFreeing (fun g => Wf sb g) s := by
  cases c with
  | namei cwd path =>
    simp only [prog, Fs.namei, wp_bind, wp_pure]
    refine (wp_namex L lenient_notFreeing hw (huses cwd rfl)).mono ?_
    exact fun r s' hr => hr.wf
  | idup ip =>
    simp only [prog, wp_bind, wp_pure]
    refine wp_idup hw.core (huses ip rfl) ?_
    exact fun s' ho _ => ho.wf hw.dirs
  | iput ip =>
    simp only [prog, wp_bind, wp_pure]
    have hsplit : h - one ip + one ip = h := by
      funext j
      by_cases hj : j = ip
      · have hpos := huses ip rfl
        subst hj
        simp only [Pi.add_apply, Pi.sub_apply, one, Pi.single_eq_same]
        omega
      · simp [one, Pi.single_eq_of_ne hj]
    have hw' : Wf sb (h - one ip + one ip) s := by rwa [hsplit]
    refine wp_iput L hw'.core ?_
    exact fun s' hp => hp.wf hw.dirs
  | ialloc type =>
    simp only [prog, wp_bind, wp_pure]
    refine wp_ialloc L hw.core (lenient_notFreeing _ (by decide)) ?_ ?_
    · rw [refs, add_zero]
      exact hw
    · intro i k d s' _ _ _ hnodes ho _
      refine ⟨ho.core, ?_⟩
      rw [ho.disk, hnodes]
      exact hw.dirs.update fun _ h => by cases h
  | readi ip copyout off n =>
    refine wp_locked hw (huses ip rfl) ?_
    exact fun s' hw' hv => wp_readi_wf hw' (huses ip rfl) hv copyout off n
  | writei ip src copyin off n =>
    have hpos := huses ip rfl
    simp only [prog, inode, wp_bind, Prog.wp_read]
    refine wp_ilock hw.core hpos (fun _ => lenient_notFreeing _ (by decide)) ?_
    intro htype
    have hw1 := hw.load hpos htype
    split
    · next hfile =>
      simp only [wp_bind, wp_pure]
      have hvalid : ((s.load sb ip).inode ip).valid = true := congrArg Inode.valid load_self
      refine (wp_writei_wf L hw1 hpos hvalid hfile src copyin off n).mono ?_
      exact fun _ s' hw' => wp_iunlock hw'.core hpos hw'
    · simp only [wp_bind, wp_pure]
      exact wp_iunlock hw1.core hpos hw1
  | itrunc ip =>
    refine wp_locked hw (huses ip rfl) ?_
    exact fun s' hw' hv => wp_itrunc_wf L hw' (huses ip rfl) hv
  | create cwd path type major minor =>
    simp only [prog, wp_bind, wp_pure]
    exact wp_create L lenient_notFreeing hw (huses cwd rfl)
  | link cwd old new =>
    simp only [prog, wp_bind, wp_pure]
    exact wp_link L lenient_notFreeing hw (huses cwd rfl)
  | unlink cwd path =>
    simp only [prog, wp_bind, wp_pure]
    exact wp_unlink L lenient_notFreeing hw (huses cwd rfl)

theorem Call.step_ensures (L : sb.Layout) {u : Session} (hw : Wf sb u.held u.fs) (c : Call) :
    (c.step sb u).Ensures NotFreeing fun u' => Wf sb u'.held u'.fs := by
  rw [Call.step]
  split
  · next huses =>
    exact Outcome.ensures_bind (c.wp_prog L hw huses).ensures
  · exact trivial

theorem calls_wf (L : sb.Layout) {u : Session} (hu : (calls sb).Reachable u) :
    Wf sb u.held u.fs := by
  refine hu.invariant (I := fun u => Wf sb u.held u.fs) ?_ ?_
  · rintro _ ⟨d, hd, rfl⟩
    exact hd.boot L
  · intro u c u' hw hstep
    exact (c.step_ensures L hw).of_ok hstep

/-- In every state that calls can reach, a data block is marked as used if and only if exactly one
slot of the inodes in use refers to it; slots refer to data blocks only; every block of a file below
its size is there; and no call frees a free block. -/
theorem calls_blocks (L : sb.Layout) {u : Session} (hu : (calls sb).Reachable u) :
    (∀ b, sb.IsData b → (sb.bit u.fs.disk b = true ↔
      ∃! σ : ℕ × Slot, own sb (sb.dinode u.fs.disk) u.fs.disk σ = some b)) ∧
    (∀ σ b, own sb (sb.dinode u.fs.disk) u.fs.disk σ = some b → sb.IsData b ∧
      ∀ τ, own sb (sb.dinode u.fs.disk) u.fs.disk τ = some b → τ = σ) ∧
    (∀ i < sb.ninodes, (sb.dinode u.fs.disk i).type ≠ 0 →
      ∀ bn < ((sb.dinode u.fs.disk i).size + BSIZE - 1) / BSIZE,
        (sb.dinode u.fs.disk i).blk u.fs.disk bn ≠ 0) ∧
    ∀ c : Call, c.step sb u ≠ .fail (.panic "freeing free block") := by
  have hw := calls_wf L hu
  have hown := hw.core.blocks.owns
  refine ⟨?_, ?_, ?_, ?_⟩
  · intro b hb
    constructor
    · intro hbit
      obtain ⟨σ, hσ⟩ := (hown.used_iff b).1 ⟨hb, hbit⟩
      exact ⟨σ, hσ, fun τ hτ => hown.inj τ σ b hτ hσ⟩
    · rintro ⟨σ, hσ, -⟩
      exact (hown.used_of_own hσ).2
  · intro σ b hσ
    exact ⟨(hown.used_of_own hσ).1, fun τ hτ => hown.inj τ σ b hτ hσ⟩
  · intro i hi htype bn hbn
    refine hw.core.blocks.full i hi htype bn ?_
    have hle := (Nat.le_div_iff_mul_le (by decide : 0 < BSIZE)).1 (Nat.succ_le_of_lt hbn)
    rw [Nat.succ_mul] at hle
    have hB : 0 < BSIZE := by decide
    omega
  · intro c hfail
    exact (c.step_ensures L hw).of_fail hfail rfl

/-- The table entry after the one of the root. -/
def newInode : InodeId := ⟨1, one_lt_NINODE⟩

/-- A file is created in the root, and three bytes are written to it. -/
def fileWritten : List Call :=
  [.create bootInode [97] T_FILE 0 0, .writei newInode (fun _ => 104) (fun _ => none) 0 3]

def rootHeld : Session := ⟨State.boot (emptyFs smallSb), one bootInode⟩

def afterWrite : Option Session :=
  TransSys.exec (fun u c => (Call.step smallSb u c).result) rootHeld fileWritten

theorem afterWrite_reachable {u : Session} (hu : afterWrite = some u) :
    (calls smallSb).Reachable u := by
  have hinit : (calls smallSb).Reachable rootHeld := .init ⟨_, smallSb_image, rfl⟩
  exact hinit.run (.of_exec (fun _ _ _ hstep => Outcome.result_eq_some.1 hstep) hu)

theorem calls_blocks_fileWritten : ∃ u, afterWrite = some u ∧
    smallSb.bit rootHeld.fs.disk 7 = false ∧ smallSb.bit u.fs.disk 7 = true ∧
    (∃! σ : ℕ × Slot, own smallSb (smallSb.dinode u.fs.disk) u.fs.disk σ = some 7) ∧
    own smallSb (smallSb.dinode u.fs.disk) u.fs.disk (2, .addr 0) = some 7 ∧
    (∀ τ, own smallSb (smallSb.dinode u.fs.disk) u.fs.disk τ = some 7 → τ = (2, .addr 0)) ∧
    (smallSb.dinode u.fs.disk 2).size = 3 ∧ (smallSb.dinode u.fs.disk 2).blk u.fs.disk 0 ≠ 0 ∧
    ∀ c : Call, c.step smallSb u ≠ .fail (.panic "freeing free block") := by
  have hrun : afterWrite.any (fun u => smallSb.bit u.fs.disk 7 ∧
      own smallSb (smallSb.dinode u.fs.disk) u.fs.disk (2, .addr 0) = some 7 ∧
      (smallSb.dinode u.fs.disk 2).type ≠ 0 ∧ (smallSb.dinode u.fs.disk 2).size = 3) = true := by
    decide +kernel
  obtain ⟨u, hu, hfacts⟩ := Option.any_eq_true _ _ |>.1 hrun
  obtain ⟨hbit, hown, htype, hsize⟩ := of_decide_eq_true hfacts
  obtain ⟨hused, hone, hfull, hfree⟩ := calls_blocks smallSb_layout (afterWrite_reachable hu)
  refine ⟨u, hu, by decide +kernel, hbit, ?_, hown, (hone _ _ hown).2, hsize, ?_, hfree⟩
  · exact (hused 7 ⟨by decide, by decide⟩).1 hbit
  · exact hfull 2 (by decide) htype 0 (by rw [hsize]; decide)

/-- In every state that calls can reach, the entries of the inode table count the references that
are held, no inode has two entries in use, an entry that is loaded is the inode on the disk and not
a free one, and directories name inodes that exist. -/
theorem calls_inode_table (L : sb.Layout) {u : Session} (hu : (calls sb).Reachable u) :
    (∀ k, (u.fs.inode k).ref = u.held k) ∧
    (∀ k k', 0 < u.held k → 0 < u.held k' → (u.fs.inode k).inum = (u.fs.inode k').inum → k = k') ∧
    (∀ k, 0 < u.held k → (u.fs.inode k).valid = true →
      (sb.dinode u.fs.disk (u.fs.inode k).inum).type ≠ 0 ∧
        (u.fs.inode k).copy = sb.dinode u.fs.disk (u.fs.inode k).inum) ∧
    ∀ i, ∀ de ∈ (nodes sb u.fs.disk i).dents, de.inum < sb.ninodes := by
  have hw := calls_wf L hu
  exact ⟨hw.core.ref, hw.core.uniq, hw.core.valid, hw.dirs⟩

theorem calls_inode_table_fileWritten : ∃ u, afterWrite = some u ∧
    (u.fs.inode newInode).ref = 1 ∧ (u.fs.inode newInode).inum = 2 ∧
    (∀ k, 0 < u.held k → (u.fs.inode k).inum = 2 → k = newInode) ∧
    (u.fs.inode newInode).copy.size = 3 ∧
    (u.fs.inode newInode).copy = smallSb.dinode u.fs.disk 2 ∧
    (nodes smallSb u.fs.disk ROOTINO).dents.map Dirent.inum = [1, 1, 2] ∧
    ∀ i, ∀ de ∈ (nodes smallSb u.fs.disk i).dents, de.inum < smallSb.ninodes := by
  have hrun : afterWrite.any (fun u => u.held newInode = 1 ∧ (u.fs.inode newInode).inum = 2 ∧
      (u.fs.inode newInode).valid = true ∧ (u.fs.inode newInode).copy.size = 3 ∧
      (nodes smallSb u.fs.disk ROOTINO).dents.map Dirent.inum = [1, 1, 2]) = true := by
    decide +kernel
  obtain ⟨u, hu, hfacts⟩ := Option.any_eq_true _ _ |>.1 hrun
  obtain ⟨hheld, hinum, hvalid, hsize, hdents⟩ := of_decide_eq_true hfacts
  obtain ⟨href, huniq, hcopy, hdirs⟩ :=
    calls_inode_table smallSb_layout (afterWrite_reachable hu)
  have hpos : 0 < u.held newInode := by omega
  refine ⟨u, hu, by rw [href, hheld, Nat.cast_one], hinum, ?_, hsize, ?_, hdents, hdirs⟩
  · exact fun k hk hk2 => huniq k newInode hk hpos (hk2.trans hinum.symm)
  · rw [(hcopy newInode hpos hvalid).2, hinum]

end
end Xv6.Fs
