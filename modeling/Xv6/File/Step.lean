import Xv6.File.Inv

/-! # Every step keeps the references exact

One lemma for each way a step changes the references of a process: they move between its descriptors
and its local variables, a file is allocated, shared or dropped, a pipe is made, closed or freed.
-/

namespace Xv6.File
set_option autoImplicit false
open Function (update update_self update_of_ne update_eq_self)
open Vm RefPool

variable {R : Ram} {s : State} {p : Proc} {pc : Pc} {o : Ofile} {f : FileId} {x : File} {fd : Fd}

theorem State.go_pc_self (s : State) (p : Proc) (pc : Pc) : (s.go p pc).pc p = pc :=
  update_self _ _ _

theorem State.go_pc_of_ne (s : State) {q : Proc} (pc : Pc) (hq : q ≠ p) :
    (s.go p pc).pc q = s.pc q := update_of_ne hq _ _

theorem State.setOfile_self (s : State) (p : Proc) : s.setOfile p (s.ofile p) = s := by
  rw [State.setOfile, update_eq_self]

theorem Inv.alive (h : Inv R s) (hpc : s.pc p ≠ .user) : s.status p = .alive := by
  by_contra hne
  exact hpc (h.idle p hne)

theorem tokens_go_of_eq (htoken : pc.token = (s.pc p).token) : (s.go p pc).tokens = s.tokens := by
  have hself : pc.token = s.tokens (.inr p) := htoken
  rw [tokens_go, hself, update_eq_self]

theorem Local.mk_go {t : State} (hmay : MayMove s p o pc) (hpc : t.pc = s.pc)
    (hofile : t.ofile = s.ofile) (hstatus : t.status = s.status)
    (hfile : ∀ f, t.file f = s.file f ∨ ∀ q, q ≠ p → f ∉ (s.pc q).fresh) :
    Local s ((t.setOfile p o).go p pc) p where
  pc q hq := by simp [State.go, State.setOfile, hq, hpc]
  ofile q hq := by simp [State.go, State.setOfile, hq, hofile]
  status := hstatus
  may := by simpa only [State.go, State.setOfile, update_self] using hmay
  file := hfile

theorem Inv.moved (h : Inv R s) (hmay : MayMove s p o pc)
    (hrefs : ∀ f, refs o pc f = refs (s.ofile p) (s.pc p) f) (htoken : pc.token = (s.pc p).token)
    (hfresh : ∀ f ∈ pc.fresh, Fresh (s.file f)) (hpc : PcOk o pc) :
    Inv R ((s.setOfile p o).go p pc) := by
  refine h.of_local (.mk_go hmay rfl rfl rfl fun f => .inl rfl) ?_ h.typed ?_ ?_ h.pool h.counts ?_
  · intro f
    simp only [State.go, State.setOfile, update_self]
    rw [hrefs f]
  · simpa only [State.go, State.setOfile, update_self] using hfresh
  · intro pg k
    have htok : ((s.setOfile p o).go p pc).tokens = s.tokens :=
      tokens_go_of_eq htoken
    rw [htok]
    exact h.tokens pg k
  · simpa only [State.go, State.setOfile, update_self] using hpc

theorem MayMove.of_alive (halive : s.status p = .alive) (hfork : ∀ np i, pc ≠ .fork np i) :
    MayMove s p o pc :=
  .alive halive fun np i hpc => absurd hpc (hfork np i)

theorem Inv.movedPc (h : Inv R s) {pc0 : Pc} (hp : s.pc p = pc0) (hmay : MayMove s p (s.ofile p) pc)
    (hrefs : ∀ f, refs (s.ofile p) pc f = refs (s.ofile p) pc0 f)
    (htoken : pc.token = pc0.token) (hfresh : pc.fresh = []) (hpc : PcOk (s.ofile p) pc) :
    Inv R (s.go p pc) := by
  have hmoved := h.moved hmay (by rw [hp]; exact hrefs) (by rw [hp]; exact htoken)
    (by simp [hfresh]) hpc
  rwa [State.setOfile_self] at hmoved

theorem Inv.withPool (h : Inv R s) {k : Kmem} {rest : Multiset (Share Ppn)}
    (hk : PoolOk R k s.pipe rest) : Inv R { s with kmem := k, rest := rest } :=
  ⟨h.ref, h.typed, h.fresh, h.tokens, hk, h.counts, h.pcs, h.forked, h.forks, h.idle, h.empty⟩

/-! ## The file table -/

theorem Inv.setFile (h : Inv R s) (hmay : MayMove s p o pc)
    (hfile : ∀ q, q ≠ p → f ∉ (s.pc q).fresh)
    (hrefs : ∀ g, g ≠ f → refs o pc g = refs (s.ofile p) (s.pc p) g)
    (href : x.ref + refs (s.ofile p) (s.pc p) f = (s.file f).ref + refs o pc f)
    (htyped : x.ref = 0 → x.type = .none)
    (htokens : ∀ t, countOf (update (update s.tokens (.inl f) (token x)) (.inr p)
      pc.token) t = countOf s.tokens t) (hfresh : ∀ g ∈ pc.fresh, Fresh (update s.file f x g))
    (hpc : PcOk o pc) : Inv R (((s.setFile f x).setOfile p o).go p pc) := by
  have hother : ∀ g, g ≠ f → update s.file f x g = s.file g :=
    fun g hg => update_of_ne hg x s.file
  have hself : update s.file f x f = x := update_self f x s.file
  refine h.of_local (.mk_go hmay rfl rfl rfl ?_) ?_ ?_ ?_ ?_ h.pool h.counts ?_
  · intro g
    by_cases hg : g = f
    · subst hg
      exact .inr hfile
    · exact .inl (hother g hg)
  · intro g
    simp only [State.go, State.setOfile, State.setFile, update_self]
    by_cases hg : g = f
    · subst hg
      rw [hself]
      exact href
    · rw [hother g hg, hrefs g hg]
  · intro g
    simp only [State.go, State.setOfile, State.setFile]
    by_cases hg : g = f
    · subst hg
      rw [hself]
      exact htyped
    · rw [hother g hg]
      exact h.typed g
  · simpa only [State.go, State.setOfile, State.setFile, update_self] using hfresh
  · intro pg k
    refine Eq.trans ?_ ((htokens (pg, k)).trans (h.tokens pg k))
    rw [← tokens_setFile, ← tokens_go]
    rfl
  · simpa only [State.go, State.setOfile, State.setFile, update_self] using hpc

theorem Inv.setFilePc (h : Inv R s) (hmay : MayMove s p (s.ofile p) pc)
    (hfile : ∀ q, q ≠ p → f ∉ (s.pc q).fresh)
    (hrefs : ∀ g, g ≠ f → refs (s.ofile p) pc g = refs (s.ofile p) (s.pc p) g)
    (href : x.ref + refs (s.ofile p) (s.pc p) f = (s.file f).ref + refs (s.ofile p) pc f)
    (htyped : x.ref = 0 → x.type = .none)
    (htokens : ∀ t, countOf (update (update s.tokens (.inl f) (token x)) (.inr p)
      pc.token) t = countOf s.tokens t) (hfresh : ∀ g ∈ pc.fresh, Fresh (update s.file f x g))
    (hpc : PcOk (s.ofile p) pc) : Inv R ((s.setFile f x).go p pc) := by
  have hset := h.setFile hmay hfile hrefs href htyped htokens hfresh hpc
  have hself : (s.setFile f x).setOfile p (s.ofile p) = s.setFile f x :=
    State.setOfile_self (s.setFile f x) p
  rwa [hself] at hset

theorem tokens_ref (f : FileId) (n : ℤ) (htoken : pc.token = (s.pc p).token) (t : Token) :
    countOf (update (update s.tokens (.inl f) (token { s.file f with ref := n }))
      (.inr p) pc.token) t = countOf s.tokens t := by
  have hinl : token { s.file f with ref := n } = s.tokens (.inl f) := rfl
  have hinr : pc.token = s.tokens (.inr p) := htoken
  rw [hinl, hinr, update_eq_self, update_eq_self]

theorem Inv.filealloc (h : Inv R s) (halive : s.status p = .alive) {t : Table}
    (hf : filealloc s.file = some (f, t))
    (hrefs : ∀ g, refs (s.ofile p) pc g = refs (s.ofile p) (s.pc p) g + if f = g then 1 else 0)
    (htoken : pc.token = (s.pc p).token) (hfresh : ∀ g ∈ pc.fresh, g = f ∨ g ∈ (s.pc p).fresh)
    (hfork : ∀ np i, pc ≠ .fork np i) (hpc : PcOk (s.ofile p) pc) :
    Inv R ({ s with file := t }.go p pc) := by
  obtain ⟨hzero, rfl⟩ := filealloc_eq_some hf
  refine h.setFilePc (.of_alive halive hfork) (h.mine (.inl hzero)) ?_ ?_ ?_
    (tokens_ref f 1 htoken) ?_ hpc
  · intro g hg
    rw [hrefs g, if_neg (Ne.symm hg), Nat.add_zero]
  · rw [hrefs f, if_pos rfl, hzero]
    push_cast
    omega
  · intro hone
    cases hone
  · intro g hg
    by_cases hgf : g = f
    · subst hgf
      rw [update_self]
      exact ⟨rfl, h.typed g hzero⟩
    · rw [update_of_ne hgf]
      exact h.fresh p g ((hfresh g hg).resolve_left hgf)

theorem Inv.ref_pos (h : Inv R s) (hf : 0 < refs (s.ofile p) (s.pc p) f) : 0 < (s.file f).ref := by
  have hle := refs_le_owed s p f
  rw [h.ref f]
  omega

theorem countOf_pos_of_other {fd' : Fd} (hne : fd' ≠ fd) (hf : o fd' = some f) :
    0 < countOf (update o fd none) f :=
  countOf_pos (by rw [update_of_ne hne, hf])

theorem Inv.dup (h : Inv R s) (hp : s.pc p = .dup fd f) :
    (filedup f s.file).Ensures (fun _ => False) fun t =>
      Inv R ({ s with file := t }.go p .user) := by
  have halive : s.status p = .alive := h.alive (by rw [hp]; simp)
  have hok := h.pcs p
  rw [hp] at hok
  obtain ⟨hfd, fd', hne, hfd'⟩ := hok
  have hrefs : ∀ g, refs (s.ofile p) .user g =
      refs (s.ofile p) (s.pc p) g + if f = g then 1 else 0 := by
    intro g
    have hclear := countOf_clear hfd g
    rw [hp]
    simp only [refs, Pc.unpaid, Pc.held, paid, List.count_nil]
    omega
  have hpos : 0 < refs (s.ofile p) (s.pc p) f := by
    have hother := countOf_pos_of_other hne hfd'
    rw [hp]
    simp only [refs, Pc.unpaid, Pc.held, paid]
    omega
  rw [filedup_of_pos (h.ref_pos hpos)]
  refine h.setFilePc (.of_alive halive (by simp)) (h.mine (.inr hpos)) ?_ ?_ ?_
    (tokens_ref f _ (by rw [hp]; rfl)) (by simp [Pc.fresh]) trivial
  · intro g hg
    rw [hrefs g, if_neg (Ne.symm hg), Nat.add_zero]
  · rw [hrefs f, if_pos rfl]
    push_cast
    omega
  · intro hzero
    have := h.ref_pos hpos
    simp only at hzero
    omega

theorem Inv.fileclose (h : Inv R s) {ret : Ret} (hp : s.pc p = .fileclose f ret) :
    (File.fileclose f s.file).Ensures (fun _ => False) fun r =>
      Inv R ({ s with file := r.2 }.go p (match r.1 with
        | none => ret.next
        | some ff => afterClose ff ret)) := by
  have halive : s.status p = .alive := h.alive (by rw [hp]; simp)
  have hok := h.pcs p
  rw [hp] at hok
  have hexit : ∀ fd, ret = .exit fd → s.ofile p fd = some f := by
    rintro fd rfl
    exact hok.1
  have hempty := hok.exit_empty (.inr ⟨f, rfl⟩)
  have hrefs : ∀ g, refs (s.ofile p) (s.pc p) g =
      ret.refs (s.ofile p) g + if f = g then 1 else 0 := by
    intro g
    rw [hp]
    exact refs_fileclose hexit g
  have hpos : 0 < refs (s.ofile p) (s.pc p) f := by
    rw [hrefs f, if_pos rfl]
    omega
  have href := h.ref_pos hpos
  have hother : ∀ (pc : Pc), refs (s.ofile p) pc = ret.refs (s.ofile p) →
      ∀ g, g ≠ f → refs (s.ofile p) pc g = refs (s.ofile p) (s.pc p) g := by
    intro pc hpc g hg
    rw [hpc, hrefs g, if_neg (Ne.symm hg), Nat.add_zero]
  rcases (show (s.file f).ref = 1 ∨ 1 < (s.file f).ref by omega) with hone | hmany
  · rw [fileclose_of_one hone]
    have hcl := closing_afterClose { s.file f with ref := 0 } ret
    have heq := refs_afterClose (s.ofile p) { s.file f with ref := 0 } ret
    refine h.setFilePc (.of_alive halive hcl.ne_fork) (h.mine (.inr hpos)) (hother _ heq) ?_
      (fun _ => rfl) ?_ ?_
      (hcl.pcOk hempty)
    · rw [heq, hrefs f, if_pos rfl, hone]
      push_cast
      omega
    · intro t
      have hinl : token { s.file f with ref := 0 } = s.tokens (.inl f) := rfl
      have hnone : s.tokens (.inr p) = none := by
        change (s.pc p).token = none
        rw [hp]
        rfl
      rw [token_afterClose, hinl]
      exact countOf_move (by simp) hnone t
    · rw [hcl.fresh_eq_nil]
      simp
  · rw [fileclose_of_many hmany]
    have hcl : Closing ret ret.next := .next
    have heq := refs_next (s.ofile p) ret
    refine h.setFilePc (.of_alive halive hcl.ne_fork) (h.mine (.inr hpos)) (hother _ heq) ?_ ?_
      (tokens_ref f _ (by rw [hp]; exact token_next ret)) ?_ (hcl.pcOk hempty)
    · rw [heq, hrefs f, if_pos rfl]
      push_cast
      omega
    · intro hzero
      simp only at hzero
      omega
    · rw [hcl.fresh_eq_nil]
      simp

theorem Inv.forkDup (h : Inv R s) {np : Proc} {i : ℕ} (hp : s.pc p = .fork np i) (hi : i < NOFILE)
    (hf : s.ofile p ⟨i, hi⟩ = some f) :
    (filedup f s.file).Ensures (fun _ => False) fun t => Inv R (({ s with file := t }.setOfile np
      (update (s.ofile np) ⟨i, hi⟩ (some f))).go p (.fork np (i + 1))) := by
  obtain ⟨hused, hnone⟩ := h.forked p np i hp
  have halive : s.status p = .alive := h.alive (by rw [hp]; simp)
  have hne : np ≠ p := by
    rintro rfl
    rw [halive] at hused
    cases hused
  have huser : s.pc np = .user := h.idle np (by rw [hused]; simp)
  have hpos : 0 < refs (s.ofile p) (s.pc p) f := by
    have hcount := countOf_pos hf
    rw [hp]
    simp only [refs, Pc.unpaid, paid]
    omega
  have href := h.ref_pos hpos
  rw [filedup_of_pos href]
  have hgo : Inv R (s.go p (.fork np (i + 1))) := by
    refine h.movedPc hp (.alive halive ?_) (fun _ => rfl) rfl rfl trivial
    intro np' j heq
    cases heq
    exact .inl ⟨i, Nat.le_succ i, hp⟩
  have huser' : (s.go p (.fork np (i + 1))).pc np = .user := (s.go_pc_of_ne _ hne).trans huser
  have hrefs : ∀ g, refs (update (s.ofile np) ⟨i, hi⟩ (some f)) .user g =
      refs ((s.go p (.fork np (i + 1))).ofile np) ((s.go p (.fork np (i + 1))).pc np) g +
        if f = g then 1 else 0 := by
    intro g
    rw [huser']
    exact countOf_set (hnone ⟨i, hi⟩ le_rfl) f g
  have hfilled : Inv R ((((s.go p (.fork np (i + 1))).setFile f
      { s.file f with ref := (s.file f).ref + 1 }).setOfile np
      (update (s.ofile np) ⟨i, hi⟩ (some f))).go np .user) := by
    refine hgo.setFile (.filled hused rfl ?_) ?_ ?_ ?_ ?_ (tokens_ref f _ (by rw [huser']))
      (by simp [Pc.fresh]) trivial
    · intro q j hq k hk
      have hqp : q = p := by
        by_contra hqp
        rw [State.go_pc_of_ne _ _ hqp] at hq
        exact hqp (h.forks q p np j i hq hp)
      rw [hqp, State.go_pc_self] at hq
      cases hq
      have hki : k ≠ ⟨i, hi⟩ := by
        rintro rfl
        simp only at hk
        omega
      rw [update_of_ne hki]
      exact hnone k (by omega)
    · intro q hq hfresh
      by_cases hqp : q = p
      · rw [hqp, State.go_pc_self] at hfresh
        cases hfresh
      · rw [State.go_pc_of_ne _ _ hqp] at hfresh
        exact h.mine (.inr hpos) q hqp hfresh
    · intro g hg
      rw [hrefs g, if_neg (Ne.symm hg), Nat.add_zero]
    · rw [hrefs f, if_pos rfl]
      change (s.file f).ref + 1 + _ = (s.file f).ref + _
      push_cast
      ring
    · intro hzero
      simp only at hzero
      omega
  have hpc : update (update s.pc p (.fork np (i + 1))) np .user =
      update s.pc p (.fork np (i + 1)) := by
    rw [← huser']
    exact update_eq_self _ _
  simp only [State.go, State.setOfile, State.setFile, hpc] at hfilled
  exact hfilled

/-! ## `sys_open` -/

theorem openInit_ref (o : Opened) (x : File) : (openInit o x).ref = x.ref := by
  rw [openInit]
  cases o.device <;> rfl

theorem token_openInit (o : Opened) (x : File) : token (openInit o x) = none := by
  rw [openInit, token]
  cases o.device <;> rfl

theorem token_of_none (h : x.type = .none) : token x = none := by
  rw [token, h]
  rfl

theorem Inv.openFd (h : Inv R s) {o : Opened} (hp : s.pc p = .openFd f o) {t : Ofile}
    (hfd : fdalloc (s.ofile p) f = some (fd, t)) :
    Inv R (((s.setOfile p t).setFile f (openInit o (s.file f))).go p .user) := by
  obtain ⟨hnone, rfl⟩ := fdalloc_eq_some hfd
  have halive : s.status p = .alive := h.alive (by rw [hp]; simp)
  have hfresh := h.fresh p f (by rw [hp]; simp [Pc.fresh])
  have hrefs : ∀ g, refs (update (s.ofile p) fd (some f)) .user g =
      refs (s.ofile p) (s.pc p) g := by
    intro g
    rw [hp]
    simp [refs, Pc.unpaid, Pc.held, paid, countOf_set hnone f g, List.count_cons]
  have hpos : 0 < refs (s.ofile p) (s.pc p) f := by
    rw [hp]
    simp [refs, Pc.held]
  refine h.setFile (.of_alive halive (by simp)) (h.mine (.inr hpos)) (fun g _ => hrefs g) ?_ ?_ ?_
    (by simp [Pc.fresh]) trivial
  · rw [openInit_ref, hrefs f]
  · rw [openInit_ref, hfresh.1]
    intro hone
    cases hone
  · intro t
    have hinl : token (openInit o (s.file f)) = s.tokens (.inl f) :=
      (token_openInit o _).trans (token_of_none hfresh.2).symm
    have hinr : Pc.user.token = s.tokens (.inr p) := by
      change none = (s.pc p).token
      rw [hp]
      rfl
    rw [hinl, hinr, update_eq_self, update_eq_self]

end Xv6.File
