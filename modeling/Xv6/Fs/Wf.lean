import Xv6.Fs.Node
import Xv6.Fs.Path

/-! # Well-formed file systems

What holds between the functions of `kernel/fs.c`: the inode table holds each inode at most once and
with the right number of references, its valid entries are copies of dinodes, the blocks are owned
by the files, and directories name inodes that exist. While a function works on one inode, the copy
in memory may be ahead of its dinode.
-/

namespace Xv6.Fs
set_option autoImplicit false
open Function (update update_self update_of_ne update_eq_self)

/-! ## The invariant -/

/-- `h` counts the references to the entries of the table. -/
structure Core (sb : Superblock) (I : ℕ → Dinode) (h : InodeId → ℕ) (s : State) : Prop where
  ref : ∀ k, (s.inode k).ref = h k
  uniq : ∀ k k', 0 < h k → 0 < h k' → (s.inode k).inum = (s.inode k').inum → k = k'
  dev : ∀ k, 0 < h k → (s.inode k).dev = ROOTDEV
  inum : ∀ k, 0 < h k → (s.inode k).inum < sb.ninodes
  valid : ∀ k, 0 < h k → (s.inode k).valid = true →
    (I (s.inode k).inum).type ≠ 0 ∧ (s.inode k).copy = I (s.inode k).inum
  blocks : BlockInv sb I s.disk

/-- Directories name inodes that exist. -/
def DirsOk (sb : Superblock) (A : ℕ → Node) : Prop := ∀ i, ∀ de ∈ (A i).dents, de.inum < sb.ninodes

theorem DirsOk.update {sb : Superblock} {A : ℕ → Node} (hA : DirsOk sb A) {i : ℕ} {x : Node}
    (hx : ∀ de ∈ x.dents, de.inum < sb.ninodes) : DirsOk sb (update A i x) := by
  intro j de hde
  by_cases hj : j = i
  · rw [hj, update_self] at hde
    exact hx de hde
  · rw [update_of_ne hj] at hde
    exact hA j de hde

structure Wf (sb : Superblock) (h : InodeId → ℕ) (s : State) : Prop where
  core : Core sb (sb.dinode s.disk) h s
  dirs : DirsOk sb (nodes sb s.disk)

/-- The inodes as they will be once the copy in entry `k` is written back. -/
def view (sb : Superblock) (k : InodeId) (s : State) : ℕ → Dinode :=
  update (sb.dinode s.disk) (s.inode k).inum (s.inode k).copy

/-- The function at work holds entry `k`, whose copy may be ahead of the dinode. -/
structure Dirty (sb : Superblock) (h : InodeId → ℕ) (k : InodeId) (s : State) : Prop where
  pos : 0 < h k
  valid : (s.inode k).valid = true
  core : Core sb (view sb k s) h s

section
variable {sb : Superblock} {h : InodeId → ℕ} {k : InodeId} {s s' s'' : State}

theorem Core.view_eq (hc : Core sb (sb.dinode s.disk) h s) (hpos : 0 < h k)
    (hvalid : (s.inode k).valid = true) : view sb k s = sb.dinode s.disk := by
  rw [view, (hc.valid k hpos hvalid).2]
  exact update_eq_self _ _

theorem Core.dirty (hc : Core sb (sb.dinode s.disk) h s) (hpos : 0 < h k)
    (hvalid : (s.inode k).valid = true) : Dirty sb h k s :=
  ⟨hpos, hvalid, by rw [hc.view_eq hpos hvalid]; exact hc⟩

@[simp] theorem view_self : view sb k s (s.inode k).inum = (s.inode k).copy :=
  update_self ..

theorem view_of_ne {j : ℕ} (hj : j ≠ (s.inode k).inum) : view sb k s j = sb.dinode s.disk j :=
  update_of_ne hj _ _

namespace Dirty

theorem inum_lt (hd : Dirty sb h k s) : (s.inode k).inum < sb.ninodes := hd.core.inum k hd.pos

theorem type_ne (hd : Dirty sb h k s) : (s.inode k).copy.type ≠ 0 := by
  have := (hd.core.valid k hd.pos hd.valid).1
  rwa [view_self] at this

theorem fits (L : sb.Layout) (hd : Dirty sb h k s) : (s.inode k).copy.Fits := by
  have := hd.core.blocks.fits L hd.inum_lt (by rw [view_self]; exact hd.type_ne)
  rwa [view_self] at this

end Dirty

/-! ## What a function on one file leaves alone -/

/-- Everything but the file of entry `k`: the rest of the table, the other dinodes, and the blocks
of the other files. -/
structure Frame (sb : Superblock) (k : InodeId) (s s' : State) : Prop where
  table : s'.inode = update s.inode k { s.inode k with copy := (s'.inode k).copy }
  dinode : ∀ j < sb.ninodes, j ≠ (s.inode k).inum → sb.dinode s'.disk j = sb.dinode s.disk j
  ref : ∀ j < sb.ninodes, j ≠ (s.inode k).inum → (sb.dinode s.disk j).type ≠ 0 → ∀ τ,
    (sb.dinode s.disk j).ref s'.disk τ = (sb.dinode s.disk j).ref s.disk τ
  data : ∀ j < sb.ninodes, j ≠ (s.inode k).inum → (sb.dinode s.disk j).type ≠ 0 → ∀ τ,
    (sb.dinode s.disk j).ref s.disk τ ≠ 0 →
    s'.disk ((sb.dinode s.disk j).ref s.disk τ) = s.disk ((sb.dinode s.disk j).ref s.disk τ)

namespace Frame

theorem refl (sb : Superblock) (k : InodeId) (s : State) : Frame sb k s s where
  table := (update_eq_self k s.inode).symm
  dinode _ _ _ := rfl
  ref _ _ _ _ _ := rfl
  data _ _ _ _ _ _ := rfl

theorem slot (h : Frame sb k s s') :
    s'.inode k = { s.inode k with copy := (s'.inode k).copy } := by
  have := congrFun h.table k
  rwa [update_self] at this

theorem inum (h : Frame sb k s s') : (s'.inode k).inum = (s.inode k).inum := by
  rw [h.slot]

theorem of_ne (h : Frame sb k s s') {k' : InodeId} (hk : k' ≠ k) : s'.inode k' = s.inode k' := by
  rw [h.table, update_of_ne hk]

theorem trans (h : Frame sb k s s') (h' : Frame sb k s' s'') : Frame sb k s s'' where
  table := by
    funext k'
    by_cases hk : k' = k
    · subst hk
      rw [update_self, h'.slot, h.slot]
    · rw [update_of_ne hk, h'.of_ne hk, h.of_ne hk]
  dinode j hj hne := by
    rw [h'.dinode j hj (by rw [h.inum]; exact hne), h.dinode j hj hne]
  ref j hj hne ht τ := by
    have hdin := h.dinode j hj hne
    have href := h'.ref j hj (by rw [h.inum]; exact hne) (by rw [hdin]; exact ht) τ
    rw [hdin] at href
    exact href.trans (h.ref j hj hne ht τ)
  data j hj hne ht τ hτ := by
    have hdin := h.dinode j hj hne
    have href := h.ref j hj hne ht τ
    have hdata := h'.data j hj (by rw [h.inum]; exact hne) (by rw [hdin]; exact ht) τ
    rw [hdin, href] at hdata
    exact (hdata hτ).trans (h.data j hj hne ht τ hτ)

theorem core (h : Frame sb k s s') {I I' : ℕ → Dinode} {c : InodeId → ℕ} (hc : Core sb I c s)
    (hk : 0 < c k → (s'.inode k).valid = true →
      (I' (s'.inode k).inum).type ≠ 0 ∧ (s'.inode k).copy = I' (s'.inode k).inum)
    (hI : ∀ k', k' ≠ k → 0 < c k' → I' (s.inode k').inum = I (s.inode k').inum)
    (hblocks : BlockInv sb I' s'.disk) : Core sb I' c s' where
  ref k' := by
    by_cases hkk : k' = k
    · rw [hkk, h.slot]
      exact hc.ref k
    · rw [h.of_ne hkk]
      exact hc.ref k'
  uniq k1 k2 h1 h2 heq := by
    have hinum : ∀ k', (s'.inode k').inum = (s.inode k').inum := by
      intro k'
      by_cases hkk : k' = k
      · rw [hkk, h.inum]
      · rw [h.of_ne hkk]
    rw [hinum, hinum] at heq
    exact hc.uniq k1 k2 h1 h2 heq
  dev k' hk' := by
    by_cases hkk : k' = k
    · rw [hkk, h.slot]
      exact hc.dev k (hkk ▸ hk')
    · rw [h.of_ne hkk]
      exact hc.dev k' hk'
  inum k' hk' := by
    by_cases hkk : k' = k
    · rw [hkk, h.inum]
      exact hc.inum k (hkk ▸ hk')
    · rw [h.of_ne hkk]
      exact hc.inum k' hk'
  valid k' hk' hv := by
    by_cases hkk : k' = k
    · subst hkk
      exact hk hk' hv
    · rw [h.of_ne hkk] at hv ⊢
      rw [hI k' hkk hk']
      exact hc.valid k' hk' hv
  blocks := hblocks

theorem dirty (hf : Frame sb k s s') (hd : Dirty sb h k s) (htype : (s'.inode k).copy.type ≠ 0)
    (hblocks : BlockInv sb (view sb k s') s'.disk) : Dirty sb h k s' where
  pos := hd.pos
  valid := by
    rw [hf.slot]
    exact hd.valid
  core := by
    refine hf.core hd.core ?_ ?_ hblocks
    · intro _ _
      rw [view_self]
      exact ⟨htype, rfl⟩
    · intro k' hkk hk'
      have hne : (s.inode k').inum ≠ (s.inode k).inum :=
        fun heq => hkk (hd.core.uniq k' k hk' hd.pos heq)
      rw [view_of_ne hne, view_of_ne (by rw [hf.inum]; exact hne)]
      exact hf.dinode _ (hd.core.inum k' hk') hne

theorem nodes (hf : Frame sb k s s') (hd : Dirty sb h k s) : nodes sb s'.disk =
    update (nodes sb s.disk) (s.inode k).inum (nodes sb s'.disk (s.inode k).inum) := by
  funext j
  by_cases hj : j = (s.inode k).inum
  · rw [hj, update_self]
  · rw [update_of_ne hj]
    exact nodes_congr hd.core.blocks (view_of_ne hj) (fun hlt => hf.dinode j hlt hj)
      (fun hlt => hf.ref j hlt hj) (fun hlt => hf.data j hlt hj)

end Frame

theorem Dirty.setCopy (hd : Dirty sb h k s) {x : Dinode} (htype : x.type = (s.inode k).copy.type)
    (haddrs : x.addrs = (s.inode k).copy.addrs) (hsize : x.size ≤ MAXFILE * BSIZE)
    (hfull : ∀ bn, bn * BSIZE < x.size → (s.inode k).copy.blk s.disk bn ≠ 0) :
    let s' : State := { s with inode := update s.inode k { s.inode k with copy := x } }
    Dirty sb h k s' ∧ Frame sb k s s' := by
  intro s'
  have hinode : s'.inode k = { s.inode k with copy := x } := update_self ..
  have href : ∀ τ, x.ref s.disk τ = (s.inode k).copy.ref s.disk τ := by
    intro τ
    cases τ with
    | addr n => exact congrFun haddrs n
    | entry j => rw [Dinode.ref, Dinode.ref, haddrs]
  have hframe : Frame sb k s s' := by
    refine ⟨?_, fun _ _ _ => rfl, fun _ _ _ _ _ => rfl, fun _ _ _ _ _ _ => rfl⟩
    rw [hinode]
  refine ⟨hframe.dirty hd ?_ ?_, hframe⟩
  · rw [hinode]
    exact htype ▸ hd.type_ne
  · have hview : ∀ j, view sb k s' j = update (view sb k s) (s.inode k).inum x j := by
      intro j
      by_cases hj : j = (s.inode k).inum
      · rw [hj, update_self, ← hframe.inum, view_self, hinode]
      · rw [update_of_ne hj, view_of_ne hj, view_of_ne (by rw [hframe.inum]; exact hj)]
    have hsame : BlockInv sb (update (view sb k s) (s.inode k).inum x) s.disk := by
      refine hd.core.blocks.same (fun _ _ => rfl) ?_ ?_ ?_ ?_
      · intro j _
        by_cases hj : j = (s.inode k).inum
        · rw [hj, update_self, view_self, htype]
        · rw [update_of_ne hj]
      · intro j _ _ τ
        by_cases hj : j = (s.inode k).inum
        · rw [hj, update_self, view_self, href]
        · rw [update_of_ne hj]
      · intro j hlt ht
        by_cases hj : j = (s.inode k).inum
        · rw [hj, update_self]
          exact hsize
        · rw [update_of_ne hj]
          exact hd.core.blocks.size j hlt ht
      · intro j hlt ht bn hbn
        by_cases hj : j = (s.inode k).inum
        · rw [hj, update_self] at hbn
          rw [hj, view_self]
          exact hfull bn hbn
        · rw [update_of_ne hj] at hbn
          exact hd.core.blocks.full j hlt ht bn hbn
    exact hsame.congr_inodes fun j _ => hview j

/-! ## References -/

def one (k : InodeId) : InodeId → ℕ := Pi.single k 1

@[simp] theorem add_one_self : (h + one k) k = h k + 1 := by
  rw [Pi.add_apply, one, Pi.single_eq_same]

theorem add_one_of_ne {j : InodeId} (hj : j ≠ k) : (h + one k) j = h j := by
  rw [Pi.add_apply, one, Pi.single_eq_of_ne hj, Nat.add_zero]

theorem pos_one : 0 < (h + one k) k := by
  rw [add_one_self]
  exact Nat.succ_pos _

theorem pos_add {g : InodeId → ℕ} {j : InodeId} (hj : 0 < h j) : 0 < (h + g) j :=
  Nat.lt_of_lt_of_le hj (Nat.le_add_right _ _)

/-- The entries with references stay with their inodes, and stay valid. -/
structure Keeps (h : InodeId → ℕ) (s s' : State) : Prop where
  inum : ∀ k, 0 < h k → (s'.inode k).inum = (s.inode k).inum
  valid : ∀ k, 0 < h k → (s.inode k).valid = true → (s'.inode k).valid = true

namespace Keeps

theorem refl (h : InodeId → ℕ) (s : State) : Keeps h s s := ⟨fun _ _ => rfl, fun _ _ hv => hv⟩

theorem trans (h1 : Keeps h s s') (h2 : Keeps h s' s'') : Keeps h s s'' where
  inum k hk := (h2.inum k hk).trans (h1.inum k hk)
  valid k hk hv := h2.valid k hk (h1.valid k hk hv)

theorem of_add {g : InodeId → ℕ} (hkeep : Keeps (h + g) s s') : Keeps h s s' where
  inum k hk := hkeep.inum k (pos_add hk)
  valid k hk := hkeep.valid k (pos_add hk)

theorem of_frame (hf : Frame sb k s s') : Keeps h s s' where
  inum j _ := by
    by_cases hj : j = k
    · rw [hj, hf.inum]
    · rw [hf.of_ne hj]
  valid j _ hv := by
    by_cases hj : j = k
    · rw [hj, hf.slot]
      rw [hj] at hv
      exact hv
    · rw [hf.of_ne hj]
      exact hv

end Keeps
end
end Xv6.Fs
