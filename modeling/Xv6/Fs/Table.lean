import Xv6.Fs.Trunc

/-! # The inode table

`iget`, `idup`, `ialloc`, `ilock` and `iput`.
-/

namespace Xv6.Fs
set_option autoImplicit false
open Function (update update_self update_of_ne update_eq_self update_idem)
open Prog (wp_bind wp_read wp_modify wp_pure)

section
variable {sb : Superblock} {h h' : InodeId → ℕ} {k : InodeId} {s s' : State} {E : Failure → Prop}

/-! ## One entry -/

theorem Core.update {I : ℕ → Dinode} (hc : Core sb I h s) {x : Inode}
    (hother : ∀ j, j ≠ k → h' j = h j)
    (href : x.ref = h' k)
    (hk : 0 < h' k → (∀ j, j ≠ k → 0 < h j → (s.inode j).inum ≠ x.inum) ∧ x.dev = ROOTDEV ∧
      x.inum < sb.ninodes ∧ (x.valid = true → (I x.inum).type ≠ 0 ∧ x.copy = I x.inum)) :
    Core sb I h' { s with inode := update s.inode k x } where
  ref j := by
    by_cases hj : j = k
    · rw [hj]
      dsimp only
      rw [update_self, href]
    · dsimp only
      rw [update_of_ne hj, hother j hj]
      exact hc.ref j
  uniq i j hi hj heq := by
    dsimp only at heq
    by_cases hik : i = k <;> by_cases hjk : j = k
    · rw [hik, hjk]
    · subst hik
      rw [update_self, update_of_ne hjk] at heq
      rw [hother j hjk] at hj
      exact absurd heq.symm ((hk hi).1 j hjk hj)
    · subst hjk
      rw [update_self, update_of_ne hik] at heq
      rw [hother i hik] at hi
      exact absurd heq ((hk hj).1 i hik hi)
    · rw [update_of_ne hik, update_of_ne hjk] at heq
      rw [hother i hik] at hi
      rw [hother j hjk] at hj
      exact hc.uniq i j hi hj heq
  dev j hj := by
    dsimp only
    by_cases hjk : j = k
    · subst hjk
      rw [update_self]
      exact (hk hj).2.1
    · rw [update_of_ne hjk]
      rw [hother j hjk] at hj
      exact hc.dev j hj
  inum j hj := by
    dsimp only
    by_cases hjk : j = k
    · subst hjk
      rw [update_self]
      exact (hk hj).2.2.1
    · rw [update_of_ne hjk]
      rw [hother j hjk] at hj
      exact hc.inum j hj
  valid j hj hv := by
    dsimp only at hv ⊢
    by_cases hjk : j = k
    · subst hjk
      rw [update_self] at hv ⊢
      exact (hk hj).2.2.2 hv
    · rw [update_of_ne hjk] at hv ⊢
      rw [hother j hjk] at hj
      exact hc.valid j hj hv
  blocks := hc.blocks

theorem Keeps.update {x : Inode} (hs : s'.inode = update s.inode k x)
    (hk : 0 < h k → x.inum = (s.inode k).inum ∧ ((s.inode k).valid = true → x.valid = true)) :
    Keeps h s s' where
  inum j hj := by
    rw [hs]
    by_cases hjk : j = k
    · subst hjk
      rw [update_self]
      exact (hk hj).1
    · rw [update_of_ne hjk]
  valid j hj hv := by
    rw [hs]
    by_cases hjk : j = k
    · subst hjk
      rw [update_self]
      exact (hk hj).2 hv
    · rw [update_of_ne hjk]
      exact hv

/-! ## `ilock` and `iunlock` -/

def State.load (sb : Superblock) (k : InodeId) (s : State) : State :=
  let x := { s.inode k with copy := sb.dinode s.disk (s.inode k).inum, valid := true }
  { s with inode := update s.inode k x }

@[simp] theorem load_disk : (s.load sb k).disk = s.disk := rfl

theorem load_self : (s.load sb k).inode k =
    { s.inode k with copy := sb.dinode s.disk (s.inode k).inum, valid := true } := by
  rw [State.load]
  exact update_self ..

theorem Core.load (hc : Core sb (sb.dinode s.disk) h s) (hpos : 0 < h k)
    (htype : (sb.dinode s.disk (s.inode k).inum).type ≠ 0) :
    Core sb (sb.dinode s.disk) h (s.load sb k) := by
  refine hc.update
    (fun _ _ => rfl) (hc.ref k) ?_
  intro _
  refine ⟨?_, hc.dev k hpos, hc.inum k hpos, fun _ => ⟨htype, rfl⟩⟩
  exact fun j hjk hj heq => hjk (hc.uniq j k hj hpos heq)

theorem Core.load_eq (hc : Core sb (sb.dinode s.disk) h s) (hpos : 0 < h k)
    (hvalid : (s.inode k).valid = true) : s.load sb k = s := by
  rw [State.load, ← (hc.valid k hpos hvalid).2, ← hvalid]
  change { s with inode := Function.update s.inode k (s.inode k) } = s
  rw [update_eq_self]

theorem Keeps.load : Keeps h s (s.load sb k) := Keeps.update rfl fun _ => ⟨rfl, fun _ => rfl⟩

variable {Q : Unit → State → Prop}

theorem wp_ilock (hc : Core sb (sb.dinode s.disk) h s) (hpos : 0 < h k)
    (hfree : (sb.dinode s.disk (s.inode k).inum).type = 0 → E (.panic "ilock: no type"))
    (hQ : (sb.dinode s.disk (s.inode k).inum).type ≠ 0 → Q () (s.load sb k)) :
    (ilock sb k).wp E Q s := by
  have href : ¬ (s.inode k).ref < 1 := by
    rw [hc.ref k]
    omega
  simp only [ilock, inode, bread, wp_bind, wp_read, if_neg href]
  by_cases hvalid : (s.inode k).valid = true
  · rw [if_neg (by rw [hvalid]; decide)]
    have hQ := hQ (hc.valid k hpos hvalid).1
    rw [hc.load_eq hpos hvalid] at hQ
    exact hQ
  · rw [if_pos (Bool.eq_false_iff.mpr hvalid)]
    simp only [setInode, wp_bind, wp_read, wp_modify]
    split
    · next htype => exact hfree htype
    · next htype => exact hQ htype

theorem wp_ilock_valid (hc : Core sb (sb.dinode s.disk) h s) (hpos : 0 < h k)
    (hvalid : (s.inode k).valid = true) (hQ : Q () s) : (ilock sb k).wp E Q s := by
  refine wp_ilock hc hpos (fun hfree => absurd hfree (hc.valid k hpos hvalid).1) fun _ => ?_
  rw [hc.load_eq hpos hvalid]
  exact hQ

theorem wp_iunlock {I : ℕ → Dinode} (hc : Core sb I h s) (hpos : 0 < h k) (hQ : Q () s) :
    (iunlock k).wp E Q s := by
  have href : ¬ (s.inode k).ref < 1 := by
    rw [hc.ref k]
    omega
  simp only [iunlock, inode, wp_bind, wp_read, if_neg href]
  exact hQ

/-! ## `iget` and `idup` -/

/-- A reference to entry `k` is taken; only the table changes. -/
structure Opened (sb : Superblock) (h : InodeId → ℕ) (k : InodeId) (s s' : State) : Prop where
  rest : s' = { s with inode := s'.inode }
  keeps : Keeps h s s'
  core : Core sb (sb.dinode s'.disk) (h + one k) s'

theorem wp_idup {Q : InodeId → State → Prop} (hc : Core sb (sb.dinode s.disk) h s) (hpos : 0 < h k)
    (hQ : ∀ s', Opened sb h k s s' → (s'.inode k).inum = (s.inode k).inum → Q k s') :
    (idup k).wp E Q s := by
  simp only [idup, setInode, wp_bind, wp_modify, wp_pure]
  refine hQ _ ⟨rfl, Keeps.update rfl fun _ => ⟨rfl, fun hv => hv⟩, ?_⟩ ?_
  · refine hc.update (fun j hj => add_one_of_ne hj) ?_ ?_
    · rw [add_one_self, hc.ref k]
      push_cast
      rfl
    · intro _
      refine ⟨?_, hc.dev k hpos, hc.inum k hpos, hc.valid k hpos⟩
      exact fun j hjk hj heq => hjk (hc.uniq j k hj hpos heq)
  · dsimp only
    rw [update_self]

theorem wp_iget {Q : InodeId → State → Prop} (hc : Core sb (sb.dinode s.disk) h s) {i : ℕ}
    (hi : i < sb.ninodes) (hE : E (.panic "iget: no inodes"))
    (hQ : ∀ k s', Opened sb h k s s' → (s'.inode k).inum = i → Q k s') :
    (iget ROOTDEV i).wp E Q s := by
  have hheld : ∀ k, (s.inode k).ref > 0 ↔ 0 < h k := by
    intro k
    rw [hc.ref k]
    omega
  simp only [iget, wp_bind, wp_read]
  split
  · next k hfind =>
    obtain ⟨hpos, -, hinum⟩ : (s.inode k).ref > 0 ∧ (s.inode k).dev = ROOTDEV ∧
        (s.inode k).inum = i := by
      simpa using List.find?_some hfind
    have hdup := wp_idup (E := E) (Q := Q) hc ((hheld k).mp hpos)
    refine hdup ?_
    intro s' ho heq
    exact hQ k s' ho (heq.trans hinum)
  · next hnone =>
    have hnew : ∀ j, 0 < h j → (s.inode j).inum ≠ i := by
      intro j hj heq
      have := List.find?_eq_none.mp hnone j (List.mem_finRange j)
      simp only [decide_eq_true_eq] at this
      exact this ⟨(hheld j).mpr hj, hc.dev j hj, heq⟩
    split
    · next k hfind =>
      have hzero : h k = 0 := by
        have : (s.inode k).ref = 0 := by simpa using List.find?_some hfind
        rw [hc.ref k] at this
        exact_mod_cast this
      simp only [setInode, wp_bind, wp_modify, wp_pure]
      refine hQ k _ ⟨rfl, Keeps.update rfl fun hpos => absurd hpos (by omega), ?_⟩ ?_
      · refine hc.update (fun j hj => add_one_of_ne hj) ?_ ?_
        · rw [add_one_self, hzero]
          rfl
        · intro _
          exact ⟨fun j _ hj => hnew j hj, rfl, hi, fun hv => by cases hv⟩
      · dsimp only
        rw [update_self]
    · exact hE

/-! ## `ialloc` -/

section
variable {d : Disk} {i : ℕ} {x : Dinode} (L : sb.Layout) (hb : BlockInv sb (sb.dinode d) d)
  (hi : i < sb.ninodes) (haddrs : ∀ n, x.addrs n = 0) (hsize : x.size = 0)

include haddrs hsize

omit hi in
theorem dinode_setDinode_empty (d : Disk) :
    sb.dinode (sb.setDinode d i x) = update (sb.dinode d) i x := by
  have hfits : x.Fits := by
    constructor
    · rw [hsize]
      decide
    · intro n
      rw [haddrs]
      decide
  funext j
  by_cases hj : j = i
  · rw [hj, update_self, Superblock.dinode_setDinode_self _ hfits]
  · rw [update_of_ne hj, Superblock.dinode_setDinode_ne _ hj]

include L hb hi

omit haddrs hsize in
theorem setDinode_block {j : ℕ} (hj : j < sb.ninodes) (ht : (sb.dinode d j).type ≠ 0) {τ : Slot}
    (hτ : (sb.dinode d j).ref d τ ≠ 0) :
    sb.setDinode d i x ((sb.dinode d j).ref d τ) = d ((sb.dinode d j).ref d τ) :=
  L.setDinode_of_ge d hi (hb.of_ref hj ht hτ).1.1

omit haddrs hsize in
theorem ref_setDinode {j : ℕ} (hj : j < sb.ninodes) (ht : (sb.dinode d j).type ≠ 0) (τ : Slot) :
    (sb.dinode d j).ref (sb.setDinode d i x) τ = (sb.dinode d j).ref d τ :=
  Dinode.ref_congr (fun hlast => setDinode_block (τ := .addr (Fin.last _)) L hb hi hj ht hlast) τ

theorem BlockInv.setDinode (hold : ∀ τ, own sb (sb.dinode d) d (i, τ) = none) :
    BlockInv sb (sb.dinode (sb.setDinode d i x)) (sb.setDinode d i x) := by
  rw [dinode_setDinode_empty haddrs hsize]
  refine hb.reset ?_ hsize ?_ (fun j hj ht _ => ref_setDinode L hb hi hj ht)
  · intro τ
    cases τ with
    | addr n => exact haddrs n
    | entry j => exact Dinode.ref_entry_of_zero (haddrs _) j
  · intro c _
    rw [L.bit_setDinode d hi, iff_self_and]
    intro _ τ
    rw [hold τ]
    nofun

theorem nodes_setDinode :
    nodes sb (sb.setDinode d i x) = update (nodes sb d) i ⟨x.type, x.nlink, []⟩ := by
  have hdinode : sb.dinode (sb.setDinode d i x) = update (sb.dinode d) i x :=
    dinode_setDinode_empty haddrs hsize d
  funext j
  by_cases hj : j = i
  · subst hj
    rw [update_self, nodes, if_pos hi, hdinode, update_self, Dinode.node]
    simp [Dinode.dents, hsize]
  · rw [update_of_ne hj]
    refine nodes_congr hb rfl ?_ ?_ ?_
    · intro _
      rw [hdinode, update_of_ne hj]
    · exact fun hlt ht => ref_setDinode L hb hi hlt ht
    · exact fun hlt ht τ hτ => setDinode_block L hb hi hlt ht hτ

end

theorem wp_ialloc {Q : Option InodeId → State → Prop} (L : sb.Layout)
    (hc : Core sb (sb.dinode s.disk) h s) {type : BitVec 16} (hE : E (.panic "iget: no inodes"))
    (hnone : Q none s)
    (hsome : ∀ i k d s', i < sb.ninodes → i ≠ 0 → (sb.dinode s.disk i).type = 0 →
      nodes sb d = update (nodes sb s.disk) i ⟨type, 0, []⟩ →
      Opened sb h k { s with disk := d } s' → (s'.inode k).inum = i → Q (some k) s') :
    (ialloc sb ROOTDEV type).wp E Q s := by
  simp only [ialloc, wp_bind, wp_read]
  split
  · next i hfind =>
    have hi : i < sb.ninodes := List.mem_range.mp (List.mem_of_find?_eq_some hfind)
    obtain ⟨hi0, hfree⟩ : i ≠ 0 ∧ (sb.dinode s.disk i).type = 0 := by
      simpa using List.find?_some hfind
    simp only [bwrite, wp_bind, wp_modify]
    have hcore : Core sb (sb.dinode (sb.setDinode s.disk i { Dinode.zero with type := type })) h
        { s with disk := sb.setDinode s.disk i { Dinode.zero with type := type } } := by
      refine ⟨hc.ref, hc.uniq, hc.dev, hc.inum, ?_, ?_⟩
      · intro k hk hv
        -- a valid entry is not for a free inode
        obtain ⟨htype, hcopy⟩ := hc.valid k hk hv
        have hne : (s.inode k).inum ≠ i := by
          rintro heq
          rw [heq] at htype
          exact htype hfree
        rw [Superblock.dinode_setDinode_ne _ hne]
        exact ⟨htype, hcopy⟩
      · exact hc.blocks.setDinode L hi (fun _ => rfl) rfl
          fun τ => own_eq_none fun _ htype => absurd hfree htype
    refine wp_iget hcore hi hE ?_
    intro k s' ho heq
    exact hsome i k _ s' hi hi0 hfree (nodes_setDinode L hc.blocks hi (fun _ => rfl) rfl) ho heq
  · exact hnone

/-! ## `iput` -/

def Last (h : InodeId → ℕ) (k : InodeId) (s : State) : Prop :=
  h k = 0 ∧ (s.inode k).valid = true ∧ (s.inode k).copy.nlink = 0

/-- A reference to entry `k` is given up, and `h` is left. -/
structure Put (sb : Superblock) (h : InodeId → ℕ) (k : InodeId) (s s' : State) : Prop where
  core : Core sb (sb.dinode s'.disk) h s'
  keeps : Keeps h s s'
  kept : ¬ Last h k s → s'.disk = s.disk
  freed : Last h k s → nodes sb s'.disk = update (nodes sb s.disk) (s.inode k).inum .free

theorem Core.free (L : sb.Layout) (hc : Core sb (sb.dinode s.disk) (h + one k) s) (hzero : h k = 0)
    {i : ℕ} (hi : (s.inode k).inum = i) {x : Dinode} (haddrs : ∀ n, x.addrs n = 0)
    (hsize : x.size = 0)
    (hold : ∀ τ, own sb (sb.dinode s.disk) s.disk (i, τ) = none) {y : Inode} (hy : y.ref = 0) :
    Core sb (sb.dinode (sb.setDinode s.disk i x)) h
      { s with disk := sb.setDinode s.disk i x, inode := Function.update s.inode k y } := by
  have hcore : Core sb (sb.dinode s.disk) h { s with inode := Function.update s.inode k y } :=
    hc.update (fun j hj => (add_one_of_ne hj).symm) (by rw [hy, hzero]; rfl)
      (fun hpos => absurd hzero (by omega))
  refine ⟨hcore.ref, hcore.uniq, hcore.dev, hcore.inum, ?_, ?_⟩
  · intro j hj hv
    obtain ⟨htype, heq⟩ := hcore.valid j hj hv
    have hjk : j ≠ k := by
      rintro rfl
      omega
    have hne : (s.inode j).inum ≠ i := by
      rw [← hi]
      exact fun heq => hjk (hc.uniq j k (pos_add hj) pos_one heq)
    dsimp only at htype heq ⊢
    rw [update_of_ne hjk] at htype heq ⊢
    rw [Superblock.dinode_setDinode_ne _ hne]
    exact ⟨htype, heq⟩
  · exact hc.blocks.setDinode L (hi ▸ hc.inum k pos_one) haddrs hsize hold

theorem wp_iput (L : sb.Layout) (hc : Core sb (sb.dinode s.disk) (h + one k) s)
    (hQ : ∀ s', Put sb h k s s' → Q () s') : (iput sb k).wp E Q s := by
  have href : (s.inode k).ref = h k + 1 := by
    rw [hc.ref k, add_one_self]
    push_cast
    rfl
  simp only [iput, inode, wp_bind, wp_read]
  by_cases hlast : Last h k s
  · obtain ⟨hzero, hvalid, hnlink⟩ := id hlast
    rw [if_pos ⟨by rw [href, hzero]; rfl, hvalid, hnlink⟩]
    simp only [wp_bind]
    have hd := hc.dirty pos_one hvalid
    refine (wp_itrunc L hd).mono ?_
    rintro _ s1 ⟨hc1, hf1, hcopy⟩
    simp only [setCopy, setInode, wp_modify]
    refine wp_iupdate ?_
    simp only [update_self, update_idem, hcopy, hf1.inum]
    have hi : (s.inode k).inum < sb.ninodes := hc.inum k pos_one
    have haddrs : ∀ n, ({ (s.inode k).copy.empty with type := 0 } : Dinode).addrs n = 0 :=
      fun _ => rfl
    have hdinode : sb.dinode s1.disk (s.inode k).inum = (s.inode k).copy.empty := by
      have hvalid1 : (s1.inode k).valid = true := by
        rw [hf1.slot]
        exact hvalid
      rw [← hcopy, ← hf1.inum]
      exact ((hc1.valid k pos_one hvalid1).2).symm
    have hold : ∀ τ, own sb (sb.dinode s1.disk) s1.disk ((s.inode k).inum, τ) = none := by
      intro τ
      refine own_eq_none fun _ _ => ?_
      rw [hdinode]
      cases τ with
      | addr n => rfl
      | entry j => exact Dinode.ref_entry_of_zero rfl j
    refine hQ _ ⟨?_, ?_, fun h => absurd hlast h, fun _ => ?_⟩
    · refine hc1.free L hzero hf1.inum haddrs rfl hold ?_
      rw [hc1.ref k, add_one_self, hzero]
      rfl
    · have hkeep : Keeps h s s1 := .of_frame hf1
      exact hkeep.trans (Keeps.update rfl fun hpos => absurd hpos (by omega))
    · dsimp only
      rw [nodes_setDinode L hc1.blocks hi haddrs rfl, hf1.nodes hd, update_idem]
      refine congrArg (update (nodes sb s.disk) _) ?_
      change (⟨0, (s.inode k).copy.nlink, []⟩ : Node) = .free
      rw [hnlink]
      rfl
  · rw [if_neg]
    · refine hQ _ ⟨?_, ?_, fun _ => rfl, fun h => absurd h hlast⟩
      · refine hc.update
          (fun j hj => (add_one_of_ne hj).symm) ?_ ?_
        · change (s.inode k).ref - 1 = h k
          omega
        · intro hpos
          refine ⟨?_, hc.dev k pos_one, hc.inum k pos_one, hc.valid k pos_one⟩
          exact fun j hjk hj heq => hjk (hc.uniq j k hj pos_one heq)
      · exact Keeps.update rfl fun _ => ⟨rfl, fun hv => hv⟩
    · rintro ⟨hone, hvalid, hnlink⟩
      exact hlast ⟨by omega, hvalid, hnlink⟩

/-! ## Well-formed file systems -/

theorem Wf.load (hw : Wf sb h s) (hpos : 0 < h k)
    (htype : (sb.dinode s.disk (s.inode k).inum).type ≠ 0) : Wf sb h (s.load sb k) :=
  ⟨hw.core.load hpos htype, hw.dirs⟩

theorem Opened.disk (ho : Opened sb h k s s') : s'.disk = s.disk := by rw [ho.rest]

theorem Opened.wf (ho : Opened sb h k s s') (hdirs : DirsOk sb (nodes sb s.disk)) :
    Wf sb (h + one k) s' := by
  refine ⟨ho.core, ?_⟩
  rw [ho.disk]
  exact hdirs

theorem Put.wf (hp : Put sb h k s s') (hdirs : DirsOk sb (nodes sb s.disk)) : Wf sb h s' := by
  refine ⟨hp.core, ?_⟩
  by_cases hlast : Last h k s
  · rw [hp.freed hlast]
    exact hdirs.update fun _ hde => by cases hde
  · rw [hp.kept hlast]
    exact hdirs

theorem wp_iunlockput (L : sb.Layout) (hw : Wf sb (h + one k) s)
    (hQ : ∀ s', Wf sb h s' → Keeps h s s' → Q () s') : (iunlockput sb k).wp E Q s := by
  rw [iunlockput, wp_bind]
  refine wp_iunlock hw.core pos_one ?_
  refine wp_iput L hw.core ?_
  exact fun s' hp => hQ s' (hp.wf hw.dirs) hp.keeps

end
end Xv6.Fs
