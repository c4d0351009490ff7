import Xv6.Fs.Directory

/-! # Path names

`namex` follows a path from directory to directory. It gives up every reference it takes but the one
it returns.
-/

namespace Xv6.Fs
set_option autoImplicit false
open Prog (wp_bind wp_pure)

theorem length_of_skipelem {path path' name : List UInt8}
    (h : skipelem path = some (path', name)) : path'.length < path.length := by
  unfold skipelem at h
  dsimp only at h
  split at h
  · cases h
  · next hne =>
    cases h
    -- the first byte after the slashes is not a slash
    obtain ⟨c, l, hcons⟩ := List.exists_cons_of_ne_nil hne
    have hc : c ≠ slash := by
      have hhead := List.head_dropWhile_not (fun c => decide (c = slash)) hne
      simpa only [hcons, List.head_cons, decide_eq_false_iff_not] using hhead
    have h1 := (List.dropWhile_suffix (l := path) fun c => decide (c = slash)).length_le
    rw [hcons] at h1 ⊢
    rw [List.dropWhile_cons_of_pos (by simpa using hc)]
    have h2 := (List.dropWhile_suffix (l := l) fun c => decide (c ≠ slash)).length_le
    have h3 := (List.dropWhile_suffix (l := l.dropWhile fun c => decide (c ≠ slash))
      fun c => decide (c = slash)).length_le
    rw [List.length_cons] at h1
    omega

def refs : Option InodeId → InodeId → ℕ
  | none => 0
  | some k => one k

section
variable {sb : Superblock} {h : InodeId → ℕ} {s s' : State} {E : Failure → Prop}

/-- What `namex` leaves: one more reference, to the inode it has found. For `nameiparent` this is a
directory. -/
structure Walked (sb : Superblock) (h : InodeId → ℕ) (nameiparent : Bool) (s : State)
    (r : Option (InodeId × List UInt8)) (s' : State) : Prop where
  wf : Wf sb (h + refs (r.map Prod.fst)) s'
  keeps : Keeps h s s'
  dir : ∀ k name, r = some (k, name) → nameiparent = true →
    (s'.inode k).valid = true ∧ (s'.inode k).copy.type = T_DIR

section
variable {nameiparent : Bool}

theorem Wf.refs_none (hw : Wf sb h s) : Wf sb (h + refs none) s := by
  rw [refs, add_zero]
  exact hw

theorem Walked.none (hw : Wf sb h s') (hkeep : Keeps h s s') :
    Walked sb h nameiparent s none s' where
  wf := hw.refs_none
  keeps := hkeep
  dir := fun _ _ heq => by cases heq

theorem Walked.wf_none (hr : Walked sb h nameiparent s .none s') : Wf sb h s' := by
  have hw := hr.wf
  rwa [Option.map_none, refs, add_zero] at hw

variable {ip : InodeId} {path name : List UInt8}

theorem wp_namexLoop (L : sb.Layout) (hE : Lenient E) {fuel : ℕ} (hfuel : path.length < fuel)
    (hw : Wf sb (h + one ip) s) :
    (namexLoop sb nameiparent fuel ip path name).wp E (Walked sb h nameiparent s) s := by
  induction fuel generalizing s ip path name with
  | zero => exact absurd hfuel (Nat.not_lt_zero _)
  | succ fuel ih =>
    unfold namexLoop
    cases hskip : skipelem path with
    | none =>
      by_cases hparent : nameiparent = true
      · rw [if_pos hparent, wp_bind]
        refine wp_iput L hw.core ?_
        exact fun s' hp => .none (hp.wf hw.dirs) hp.keeps
      · rw [if_neg hparent, wp_pure]
        exact ⟨hw, .refl _ _, fun _ _ _ hp => absurd hp hparent⟩
    | some p =>
      obtain ⟨path', name'⟩ := p
      have hlen := length_of_skipelem hskip
      simp only [wp_bind]
      refine wp_ilock hw.core pos_one (fun _ => hE _ (by decide)) ?_
      intro htype
      have hw1 := hw.load pos_one htype
      have hvalid : ((s.load sb ip).inode ip).valid = true := congrArg Inode.valid load_self
      simp only [inode, Prog.wp_read]
      -- whenever the walk ends here without a result
      have hend : (iunlockput sb ip).wp E (fun _ s' => Walked sb h nameiparent s none s')
          (s.load sb ip) :=
        wp_iunlockput L hw1 fun s' hw' hkeep => .none hw' (Keeps.load.trans hkeep)
      split
      · rw [wp_bind]
        exact hend
      · next hdir =>
        split
        · rw [wp_bind]
          refine wp_iunlock hw1.core pos_one ⟨hw1, .load, ?_⟩
          rintro k nm heq -
          obtain ⟨rfl, -⟩ := Prod.mk.inj (Option.some.inj heq)
          exact ⟨hvalid, not_not.mp hdir⟩
        · rw [wp_bind]
          refine wp_dirlookup hw1 pos_one hvalid hE ?_ ?_
          · intro _ _
            rw [wp_bind]
            exact hend
          · intro next j i s2 _ _ ho _
            have hw2 := ho.wf hw1.dirs
            rw [add_right_comm] at hw2
            rw [wp_bind]
            refine wp_iunlockput L hw2 ?_
            intro s3 hw3 hkeep3
            refine (ih (by omega) hw3).mono ?_
            intro r s' hr
            refine ⟨hr.wf, ?_, hr.dir⟩
            exact ((Keeps.load.trans ho.keeps.of_add).trans hkeep3.of_add).trans hr.keeps

theorem wp_namex (L : sb.Layout) (hE : Lenient E) {cwd : InodeId} (hw : Wf sb h s)
    (hpos : 0 < h cwd) :
    (namex sb cwd path nameiparent).wp E (Walked sb h nameiparent s) s := by
  -- the loop starts with a reference to the first inode
  have hloop : ∀ ip s1, Opened sb h ip s s1 →
      (namexLoop sb nameiparent (path.length + 1) ip path []).wp E
        (Walked sb h nameiparent s) s1 := by
    intro ip s1 ho
    refine (wp_namexLoop L hE (Nat.lt_succ_self _) (ho.wf hw.dirs)).mono ?_
    exact fun r s' hr => ⟨hr.wf, ho.keeps.trans hr.keeps, hr.dir⟩
  rw [namex]
  split
  · rw [wp_bind]
    refine wp_iget hw.core L.root (hE _ (by decide)) ?_
    exact fun ip s1 ho _ => hloop ip s1 ho
  · rw [wp_bind]
    refine wp_idup hw.core hpos ?_
    exact fun s1 ho _ => hloop cwd s1 ho

end

end
end Xv6.Fs
