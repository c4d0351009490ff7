import Xv6.File.Step

/-! # Pipes are made, closed and freed -/

namespace Xv6.File
set_option autoImplicit false
open Function (update update_self update_of_ne comp_update)
open Vm RefPool

variable {R : Ram} {s : State} {p : Proc} {k : Kmem} {pipe : Ppn → Option Ends} {pi : Ppn}
  {ret : Ret}

/-! ## Pages -/

theorem PoolOk.rest {rest rest' : Multiset (Share Ppn)} {k' : Kmem} (h : PoolOk R k pipe rest)
    (hk : ∀ M, KOk R k (M + rest) → KOk R k' (M + rest')) : PoolOk R k' pipe rest' := by
  obtain ⟨pages, hpages, hok⟩ := h
  exact ⟨pages, hpages, hk _ hok⟩

theorem PoolOk.alloc {k' : Kmem} {rest : Multiset (Share Ppn)} (h : PoolOk R k pipe rest)
    (hk : k.kalloc = (some pi, k')) (e : Ends) :
    pipe pi = none ∧ PoolOk R k' (update pipe pi (some e)) rest := by
  obtain ⟨pages, hpages, hok⟩ := h
  obtain ⟨hx, hzero, -⟩ := kalloc_some hk hok
  have hnot : pi ∉ pages := by
    intro hmem
    have hpos : 0 < uses (pages.val.map Share.sole + rest) pi :=
      uses_pos (Multiset.mem_add.mpr (.inl (Multiset.mem_map_of_mem _ hmem)))
    omega
  have hnone : pipe pi = none := by
    by_contra hsome
    exact hnot ((hpages pi).mpr (Option.isSome_iff_ne_none.mpr hsome))
  refine ⟨hnone, insert pi pages, ?_, ?_⟩
  · intro pg
    rw [Finset.mem_insert, hpages]
    by_cases hpg : pg = pi
    · subst hpg
      simp
    · simp [hpg]
  · rw [Finset.insert_val_of_notMem hnot, Multiset.map_cons, Multiset.cons_add]
    exact hx (.sole pi) rfl

theorem PoolOk.kfree {rest : Multiset (Share Ppn)} (h : PoolOk R k pipe rest)
    (hpi : (pipe pi).isSome) : (k.kfree R pi).Ensures (fun _ => False) fun k' =>
      PoolOk R k' (update pipe pi none) rest := by
  obtain ⟨pages, hpages, hok⟩ := h
  have hmem := (hpages pi).mpr hpi
  rw [← Finset.insert_erase hmem, Finset.insert_val_of_notMem (Finset.notMem_erase pi pages),
    Multiset.map_cons, Multiset.cons_add] at hok
  refine (kfree_ensures hok).mono ?_
  intro k' hfreed
  refine ⟨pages.erase pi, ?_, hfreed.1⟩
  intro pg
  rw [Finset.mem_erase, hpages]
  by_cases hpg : pg = pi
  · subst hpg
    simp
  · simp [hpg]

/-! ## `pipealloc` -/

theorem Inv.page_files_ne (h : Inv R s) {f0 f1 : FileId} (hp : s.pc p = .pipePage f0 f1) :
    f0 ≠ f1 := by
  rintro rfl
  have hone := (h.fresh p f0 (by rw [hp]; simp [Pc.fresh])).1
  have hle := refs_le_owed s p f0
  rw [h.ref f0] at hone
  rw [hp] at hle
  simp [refs, Pc.held] at hle
  omega

theorem pipeInit_file {f0 f1 : FileId} (hne : f0 ≠ f1) (pi : Ppn) (s : State) :
    (pipeInit f0 f1 pi s).file = update
      (update s.file f0
        { s.file f0 with type := .pipe, readable := true, writable := false, pipe := pi }) f1
      { s.file f1 with type := .pipe, readable := false, writable := true, pipe := pi } := by
  simp [pipeInit, State.setFile, State.setPipe, hne.symm]

theorem Inv.pipePage (h : Inv R s) {f0 f1 : FileId} (hp : s.pc p = .pipePage f0 f1)
    (hk : s.kmem.kalloc = (some pi, k)) :
    Inv R ((pipeInit f0 f1 pi { s with kmem := k }).go p (.pipeFds f0 f1)) := by
  have hne := h.page_files_ne hp
  have halive : s.status p = .alive := h.alive (by rw [hp]; simp)
  obtain ⟨hnone, hpool⟩ := h.pool.alloc hk ⟨true, true⟩
  have hfile := pipeInit_file hne pi { s with kmem := k }
  have hfresh : ∀ f, f = f0 ∨ f = f1 → Fresh (s.file f) := by
    intro f hf
    refine h.fresh p f ?_
    rw [hp]
    simpa [Pc.fresh] using hf
  have hheld : ∀ f, f = f0 ∨ f = f1 → 0 < refs (s.ofile p) (s.pc p) f := by
    intro f hf
    rw [hp]
    have hpos : 0 < [f0, f1].count f := List.count_pos_iff.mpr (by simpa using hf)
    simp only [refs, Pc.held]
    omega
  have hcases : ∀ f, ((pipeInit f0 f1 pi { s with kmem := k }).file f).ref = (s.file f).ref ∧
      (f ≠ f0 → f ≠ f1 → (pipeInit f0 f1 pi { s with kmem := k }).file f = s.file f) := by
    intro f
    rw [hfile]
    by_cases h1 : f = f1
    · subst h1
      simp
    · by_cases h0 : f = f0
      · subst h0
        simp [hne]
      · simp [h0, h1]
  have hlocal : Local s ((pipeInit f0 f1 pi { s with kmem := k }).go p (.pipeFds f0 f1)) p := by
    have hl : Local s (((pipeInit f0 f1 pi { s with kmem := k }).setOfile p (s.ofile p)).go p
        (.pipeFds f0 f1)) p := .mk_go (.of_alive halive (by simp)) rfl rfl rfl ?_
    · rwa [show (pipeInit f0 f1 pi { s with kmem := k }).setOfile p (s.ofile p) = _ from
        State.setOfile_self _ p] at hl
    · intro f
      by_cases hf : f = f0 ∨ f = f1
      · exact .inr (h.mine (.inr (hheld f hf)))
      · rw [not_or] at hf
        exact .inl ((hcases f).2 hf.1 hf.2)
  refine h.of_local hlocal ?_ ?_ ?_ ?_ hpool ?_ ?_
  · intro f
    have hpc : ((pipeInit f0 f1 pi { s with kmem := k }).go p (.pipeFds f0 f1)).pc p =
        .pipeFds f0 f1 := update_self _ _ _
    rw [hpc, hp]
    exact congrArg (· + _) (hcases f).1
  · intro f hzero
    have href : (s.file f).ref = 0 := (hcases f).1.symm.trans hzero
    have hnot : ¬ (f = f0 ∨ f = f1) := by
      intro hf
      have := (hfresh f hf).1
      omega
    rw [not_or] at hnot
    exact (congrArg File.type ((hcases f).2 hnot.1 hnot.2)).trans (h.typed f href)
  · simp [State.go, Pc.fresh]
  · intro pg kind
    have htok : ((pipeInit f0 f1 pi { s with kmem := k }).go p (.pipeFds f0 f1)).tokens =
        update (update s.tokens (.inl f0) (some (pi, some false))) (.inl f1)
          (some (pi, some true)) := by
      rw [tokens_go_of_eq (by change none = (s.pc p).token; rw [hp]; rfl), State.tokens, hfile,
        comp_update, comp_update, ← Sum.update_elim_inl, ← Sum.update_elim_inl]
      rfl
    have h0 : s.tokens (.inl f0) = none := token_of_none (hfresh f0 (.inl rfl)).2
    have h1 : update s.tokens (.inl f0) (some (pi, some false)) (.inl f1) = none := by
      rw [update_of_ne (by simpa using hne.symm)]
      exact token_of_none (hfresh f1 (.inr rfl)).2
    rw [htok, countOf_set h1, countOf_set h0, h.tokens pg kind]
    change _ = if wanted (update s.pipe pi (some ⟨true, true⟩) pg) kind then 1 else 0
    by_cases hpg : pg = pi
    · subst hpg
      rw [hnone, update_self]
      rcases kind with - | (_ | _) <;> simp [wanted, Ends.isOpen]
    · simp [update_of_ne hpg, Ne.symm hpg]
  · intro pg
    change update s.allocs pi (s.allocs pi + 1) pg = s.frees pg +
      if (update s.pipe pi (some ⟨true, true⟩) pg).isSome then 1 else 0
    have hcount := h.counts pg
    by_cases hpg : pg = pi
    · subst hpg
      simpa [hnone] using hcount
    · simpa [hpg] using hcount
  · simp [State.go, PcOk]

/-! ## `pipeclose` -/

theorem Inv.wanted_of_token (h : Inv R s) {t : Token} (ht : (s.pc p).token = some t) :
    wanted (s.pipe t.1) t.2 = true := by
  have hself : s.tokens (.inr p) = some t := ht
  have hpos : 0 < countOf s.tokens (t.1, t.2) := countOf_pos hself
  have htok := h.tokens t.1 t.2
  by_contra hno
  rw [if_neg hno] at htok
  omega

theorem Inv.setPipe (h : Inv R s) {pc : Pc} {e : Option Ends} {n : Ppn → ℕ}
    (hret : Closing ret (s.pc p)) (hpc : Closing ret pc) (hnot : s.pc p ≠ ret.next)
    (hrefs : refs (s.ofile p) pc = ret.refs (s.ofile p))
    (hrefs' : refs (s.ofile p) (s.pc p) = ret.refs (s.ofile p))
    (htokens : ∀ pg kind, countOf (update s.tokens (.inr p) pc.token) (pg, kind) =
      if wanted (update s.pipe pi e pg) kind then 1 else 0)
    (hpool : PoolOk R k (update s.pipe pi e) s.rest)
    (hcounts : ∀ pg, s.allocs pg = n pg + if (update s.pipe pi e pg).isSome then 1 else 0) :
    Inv R ({ s.setPipe pi e with kmem := k, frees := n }.go p pc) := by
  have halive : s.status p = .alive := by
    refine h.alive ?_
    intro huser
    rw [huser] at hret hnot
    generalize hq : Pc.user = q at hret
    cases hret with
    | next => exact hnot hq
    | _ => cases hq
  have hempty := (h.pcs p).exit_empty (.inl hret)
  have hlocal : Local s ((State.setOfile { s.setPipe pi e with kmem := k, frees := n } p
      (s.ofile p)).go p pc) p :=
    .mk_go (.of_alive halive hpc.ne_fork) rfl rfl rfl (fun f => .inl rfl)
  rw [show State.setOfile { s.setPipe pi e with kmem := k, frees := n } p (s.ofile p) = _ from
    State.setOfile_self _ p] at hlocal
  have hself : (State.go { s.setPipe pi e with kmem := k, frees := n } p pc).pc p = pc :=
    update_self _ _ _
  refine h.of_local hlocal ?_ h.typed ?_ ?_ hpool hcounts ?_
  · intro f
    rw [hself, hrefs']
    change _ = _ + (refs (s.ofile p) pc f : ℤ)
    rw [hrefs]
    rfl
  · rw [hself, hpc.fresh_eq_nil]
    simp
  · intro pg kind
    exact (congrArg (countOf · _) (tokens_go _ _ _)).trans (htokens pg kind)
  · rw [hself]
    exact hpc.pcOk hempty

theorem Ends.wanted_close {e : Ends} {writable : Bool} (h : e.isOpen writable = true)
    (kind : Option Bool) :
    (if wanted (some (e.close writable)) kind then 1 else 0) +
      (if some writable = kind then 1 else 0) =
    (if wanted (some e) kind then 1 else 0) +
      (if e.close writable = ⟨false, false⟩ ∧ none = kind then 1 else 0) := by
  obtain ⟨r, w⟩ := e
  revert h
  revert kind writable r w
  decide

theorem Inv.pipeclose (h : Inv R s) {writable : Bool} (hp : s.pc p = .pipeclose pi writable ret) :
    ∃ e, s.pipe pi = some e ∧ Inv R ((s.setPipe pi (some (e.close writable))).go p
      (if (e.close writable).readopen = false ∧ (e.close writable).writeopen = false then
        .kfree pi ret else ret.next)) := by
  have htoken : (s.pc p).token = some (pi, some writable) := by rw [hp]; rfl
  have hwanted := h.wanted_of_token htoken
  obtain ⟨e, he, hopen⟩ : ∃ e, s.pipe pi = some e ∧ e.isOpen writable = true := by
    simpa [wanted, Option.any_eq_true] using hwanted
  refine ⟨e, he, ?_⟩
  have hsome : ∀ pg, (update s.pipe pi (some (e.close writable)) pg).isSome =
      (s.pipe pg).isSome := by
    intro pg
    by_cases hpg : pg = pi
    · subst hpg
      simp [he]
    · simp [hpg]
  have hcl : Closing ret (s.pc p) := by
    rw [hp]
    exact .pipeclose pi writable
  have hnot : s.pc p ≠ ret.next := by
    rw [hp]
    cases ret <;> simp [Ret.next]
  generalize hpc : (if (e.close writable).readopen = false ∧
      (e.close writable).writeopen = false then
    Pc.kfree pi ret else ret.next) = pc
  have hnew : ∀ t, pc.token = some t ↔ e.close writable = ⟨false, false⟩ ∧ t = (pi, none) := by
    intro t
    rw [← hpc, Ends.mk.injEq]
    split
    · next hclosed => simp [Pc.token, hclosed, eq_comm]
    · next hclosed => simp [token_next, hclosed]
  refine h.setPipe hcl ?_ hnot ?_ (by rw [hp]; rfl) ?_ ?_ ?_
  · rw [← hpc]
    split
    · exact .kfree pi
    · exact .next
  · rw [← hpc]
    split
    · rfl
    · exact refs_next _ ret
  · intro pg kind
    have hupd := countOf_update s.tokens (.inr p) pc.token (pg, kind)
    rw [show s.tokens (.inr p) = some (pi, some writable) from htoken, h.tokens pg kind] at hupd
    simp only [hnew, Option.some.injEq, Prod.mk.injEq] at hupd
    by_cases hpg : pg = pi
    · subst hpg
      have hclose := Ends.wanted_close hopen kind
      rw [update_self]
      simp only [he, true_and, eq_comm (a := kind)] at hupd
      omega
    · rw [update_of_ne hpg]
      simpa only [hpg, Ne.symm hpg, false_and, and_false, if_false, Nat.add_zero] using hupd
  · obtain ⟨pages, hpages, hok⟩ := h.pool
    exact ⟨pages, fun pg => by rw [hpages, hsome], hok⟩
  · intro pg
    rw [hsome]
    exact h.counts pg

theorem Inv.kfree (h : Inv R s) (hp : s.pc p = .kfree pi ret) :
    (s.kmem.kfree R pi).Ensures (fun _ => False) fun k => Inv R ({ s.setPipe pi none with
      kmem := k, frees := update s.frees pi (s.frees pi + 1) }.go p ret.next) := by
  have htoken : (s.pc p).token = some (pi, none) := by rw [hp]; rfl
  have he : s.pipe pi = some ⟨false, false⟩ := by
    simpa [wanted] using h.wanted_of_token htoken
  refine (h.pool.kfree (show (s.pipe pi).isSome by rw [he]; rfl)).mono ?_
  intro k hk
  have hcl : Closing ret (s.pc p) := by
    rw [hp]
    exact .kfree pi
  have hnot : s.pc p ≠ ret.next := by
    rw [hp]
    cases ret <;> simp [Ret.next]
  refine h.setPipe hcl .next hnot (refs_next _ ret) (by rw [hp]; rfl) ?_ hk ?_
  · intro pg kind
    have hupd := countOf_clear (f := s.tokens) (i := .inr p) htoken (pg, kind)
    rw [h.tokens pg kind] at hupd
    rw [token_next]
    by_cases hpg : pg = pi
    · subst hpg
      rw [update_self]
      rw [he] at hupd
      rcases kind with - | (_ | _) <;> simp_all [wanted, Ends.isOpen]
    · rw [update_of_ne hpg]
      simpa [Ne.symm hpg] using hupd
  · intro pg
    have hcount := h.counts pg
    by_cases hpg : pg = pi
    · subst hpg
      simpa [he] using hcount
    · simpa [hpg] using hcount

end Xv6.File
