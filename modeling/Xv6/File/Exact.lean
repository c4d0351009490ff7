import Xv6.File.Pipes

/-! # Reference counts of open files are exact -/

namespace Xv6.File
set_option autoImplicit false
open Function (update update_self update_of_ne update_eq_self update_idem)
open Vm RefPool

variable {R : Ram} {s : State} {p : Proc}

/-! ## Descriptors -/

theorem Inv.pipeFds (h : Inv R s) {rf wf : FileId} (hp : s.pc p = .pipeFds rf wf) :
    (pcStep R false p s (.pipeFds rf wf)).Ensures (fun _ => False) (Inv R) := by
  have halive : s.status p = .alive := h.alive (by rw [hp]; simp)
  have hback : Inv R (s.go p (.fileclose rf (.close wf))) :=
    h.movedPc hp (.of_alive halive (by simp)) (fun _ => rfl) rfl rfl trivial
  rw [pcStep]
  cases hfd0 : fdalloc (s.ofile p) rf with
  | none => exact hback
  | some r =>
    obtain ⟨fd0, o⟩ := r
    obtain ⟨hnone0, rfl⟩ := fdalloc_eq_some hfd0
    dsimp only
    cases hfd1 : fdalloc (update (s.ofile p) fd0 (some rf)) wf with
    | none =>
      dsimp only
      rw [update_idem, ← hnone0, update_eq_self, State.setOfile_self]
      exact hback
    | some r =>
      obtain ⟨fd1, o⟩ := r
      obtain ⟨hnone1, rfl⟩ := fdalloc_eq_some hfd1
      have hne : fd0 ≠ fd1 := by
        rintro rfl
        rw [update_self] at hnone1
        cases hnone1
      refine h.moved (.of_alive halive (by simp)) ?_ (by rw [hp]; rfl) (by simp [Pc.fresh]) ?_
      · intro f
        rw [hp]
        simp only [refs, Pc.unpaid, Pc.held, paid, countOf_set hnone1, countOf_set hnone0,
          List.count_cons, List.count_nil, beq_iff_eq]
        omega
      · refine ⟨?_, update_self _ _ _, hne⟩
        rw [update_of_ne hne, update_self]

theorem Inv.pipeCopyout (h : Inv R s) {rf wf : FileId} {fd0 fd1 : Fd} (copyout : Bool)
    (hp : s.pc p = .pipeCopyout rf wf fd0 fd1) :
    (pcStep R copyout p s (.pipeCopyout rf wf fd0 fd1)).Ensures (fun _ => False) (Inv R) := by
  have halive : s.status p = .alive := h.alive (by rw [hp]; simp)
  have hok := h.pcs p
  rw [hp] at hok
  obtain ⟨h0, h1, hne⟩ := hok
  rw [pcStep]
  split
  · exact h.movedPc hp (.of_alive halive (by simp)) (fun _ => rfl) rfl rfl trivial
  · refine h.moved (.of_alive halive (by simp)) ?_ (by rw [hp]; rfl) (by simp [Pc.fresh]) trivial
    intro f
    have h1' : update (s.ofile p) fd0 none fd1 = some wf := by
      rw [update_of_ne hne.symm, h1]
    have hc0 := countOf_clear h0 f
    have hc1 := countOf_clear h1' f
    rw [hp]
    simp only [refs, Pc.unpaid, Pc.held, paid, List.count_cons, List.count_nil, beq_iff_eq]
    omega

theorem Inv.exitLoop (h : Inv R s) {fd : ℕ} (hp : s.pc p = .exit fd) :
    (pcStep R false p s (.exit fd)).Ensures (fun _ => False) (Inv R) := by
  have halive : s.status p = .alive := h.alive (by rw [hp]; simp)
  have hok := h.pcs p
  rw [hp] at hok
  rw [pcStep]
  split
  · next hfd =>
    cases hf : s.ofile p ⟨fd, hfd⟩ with
    | none =>
      refine h.movedPc hp (.of_alive halive (by simp)) (fun _ => rfl) rfl rfl ?_
      intro j hj
      rcases Nat.lt_succ_iff_lt_or_eq.mp hj with hlt | heq
      · exact hok j hlt
      · rwa [show j = ⟨fd, hfd⟩ from Fin.ext heq]
    | some f => exact h.movedPc hp (.of_alive halive (by simp)) (fun _ => rfl) rfl rfl ⟨hf, hok⟩
  · next hfd =>
    have hmoved : Inv R (s.go p .user) :=
      h.movedPc hp (.of_alive halive (by simp)) (fun _ => rfl) rfl rfl trivial
    refine hmoved.setStatus (hmoved.not_forked ?_) (fun _ => s.go_pc_self p .user) ?_
    · exact fun hused => absurd (halive.symm.trans hused) (by simp)
    · exact fun _ j => hok j (by omega)

theorem Inv.forkLoop (h : Inv R s) {np : Proc} {i : ℕ} (hp : s.pc p = .fork np i) :
    (pcStep R false p s (.fork np i)).Ensures (fun _ => False) (Inv R) := by
  have halive : s.status p = .alive := h.alive (by rw [hp]; simp)
  rw [pcStep]
  split
  · next hi =>
    cases hf : s.ofile p ⟨i, hi⟩ with
    | none =>
      refine h.movedPc hp (.alive halive ?_) (fun _ => rfl) rfl rfl trivial
      intro np' i' heq
      cases heq
      exact .inl ⟨i, Nat.le_succ i, hp⟩
    | some f =>
      apply Outcome.ensures_bind
      exact h.forkDup hp hi hf
  · have hmoved : Inv R (s.go p .user) :=
      h.movedPc hp (.of_alive halive (by simp)) (fun _ => rfl) rfl rfl trivial
    refine hmoved.setStatus ?_ (fun hne => absurd rfl hne) (by simp)
    intro q j hq
    by_cases hqp : q = p
    · rw [hqp, State.go_pc_self] at hq
      cases hq
    · rw [State.go_pc_of_ne _ _ hqp] at hq
      exact hqp (h.forks q p np j i hq hp)

/-! ## A step inside the kernel -/

theorem Inv.pcStep (h : Inv R s) (copyout : Bool) (p : Proc) :
    (pcStep R copyout p s (s.pc p)).Ensures (fun _ => False) (Inv R) := by
  have halive : ∀ {pc}, s.pc p = pc → pc ≠ .user → s.status p = .alive :=
    fun hp hne => h.alive (hp ▸ hne)
  have hquiet : ∀ {pc pc' : Pc}, s.pc p = pc → pc ≠ .user → (∀ np i, pc' ≠ .fork np i) →
      (∀ f, refs (s.ofile p) pc' f = refs (s.ofile p) pc f) → pc'.token = pc.token →
      pc'.fresh = [] →
      PcOk (s.ofile p) pc' → Inv R (s.go p pc') :=
    fun hp hne hfork => h.movedPc hp (.of_alive (halive hp hne) hfork)
  cases hp : s.pc p with
  | user => trivial
  | dup fd f =>
    apply Outcome.ensures_bind
    exact h.dup hp
  | fileclose f ret =>
    apply Outcome.ensures_bind
    refine (h.fileclose hp).mono ?_
    rintro ⟨ff, t⟩ hinv
    cases ff <;> exact hinv
  | pipeclose pi writable ret =>
    obtain ⟨e, he, hinv⟩ := h.pipeclose hp
    rw [File.pcStep, he]
    exact hinv
  | kfree pi ret =>
    apply Outcome.ensures_bind
    exact h.kfree hp
  | iput ip ret =>
    have hok := h.pcs p
    rw [hp] at hok
    have hcl : Closing ret ret.next := .next
    refine h.movedPc hp (.of_alive (halive hp (by simp)) hcl.ne_fork) ?_ (token_next ret)
      hcl.fresh_eq_nil (hcl.pcOk (hok.exit_empty (.inl (.iput ip))))
    intro f
    rw [refs_next]
    rfl
  | pipeFirst | openFile o =>
    rw [File.pcStep]
    cases hf : File.filealloc s.file with
    | none => exact hquiet hp (by simp) (by simp) (fun _ => rfl) rfl rfl trivial
    | some r =>
      refine h.filealloc (halive hp (by simp)) hf ?_ (by rw [hp]; rfl) (by simp [Pc.fresh])
        (by simp)
        trivial
      intro g
      rw [hp]
      simp [refs, Pc.unpaid, Pc.held, List.count_cons]
  | pipeSecond f0 =>
    rw [File.pcStep]
    cases hf : File.filealloc s.file with
    | none => exact hquiet hp (by simp) (by simp) (fun _ => rfl) rfl rfl trivial
    | some r =>
      refine h.filealloc (halive hp (by simp)) hf ?_ (by rw [hp]; rfl) ?_ (by simp) trivial
      · intro g
        rw [hp]
        simp only [refs, Pc.unpaid, Pc.held, List.count_cons, List.count_nil, beq_iff_eq]
        omega
      · rw [hp]
        simp [Pc.fresh, or_comm]
  | pipePage f0 f1 =>
    rw [File.pcStep]
    cases hk : s.kmem.kalloc with
    | mk r k =>
      cases r with
      | none =>
        have hkmem := h.withPool (h.pool.rest fun M hM => (kalloc_none hk hM).1)
        exact hkmem.movedPc hp (.of_alive (halive hp (by simp)) (by simp)) (fun _ => rfl) rfl rfl
          trivial
      | some pi => exact h.pipePage hp hk
  | pipeFds rf wf => exact h.pipeFds hp
  | pipeCopyout rf wf fd0 fd1 => exact h.pipeCopyout copyout hp
  | openFd f o =>
    rw [File.pcStep]
    cases hfd : fdalloc (s.ofile p) f with
    | none => exact hquiet hp (by simp) (by simp) (fun _ => rfl) rfl rfl trivial
    | some r => exact h.openFd hp hfd
  | fork np i => exact h.forkLoop hp
  | exit fd => exact h.exitLoop hp
  | exitClear fd =>
    have hok := h.pcs p
    rw [hp] at hok
    refine h.moved (.of_alive (halive hp (by simp)) (by simp)) ?_ (by rw [hp]; rfl)
      (by simp [Pc.fresh]) ?_
    · intro f
      rw [hp]
      rfl
    · intro j hj
      by_cases hjf : j = fd
      · rw [hjf, update_self]
      · rw [update_of_ne hjf]
        have hlt : j < fd := lt_of_le_of_ne (Fin.le_def.mpr (Nat.lt_succ_iff.mp hj)) hjf
        exact hok j hlt

/-! ## A step of the system -/

theorem enter_ensures {k : Outcome Failure State} {E : Failure → Prop} {Q : State → Prop}
    (h : s.status p = .alive → s.pc p = .user → k.Ensures E Q) : (enter p s k).Ensures E Q := by
  rw [enter]
  split
  · next halive huser => exact h halive huser
  · trivial

theorem Inv.startFork (h : Inv R s) {np : Proc} (halive : s.status p = .alive)
    (huser : s.pc p = .user) (hnp : s.status np = .unused) :
    Inv R ({ s with status := update s.status np .used }.go p (.fork np 0)) := by
  have hne : p ≠ np := by
    rintro rfl
    rw [halive] at hnp
    cases hnp
  have hnot := h.not_forked (by rw [hnp]; simp)
  have hused : Inv R { s with status := update s.status np .used } :=
    h.setStatus hnot (fun _ => h.idle np (by rw [hnp]; simp)) (by simp)
  refine hused.movedPc huser (.alive ((update_of_ne hne _ _).trans halive) ?_)
    (fun _ => rfl) rfl rfl
    trivial
  intro np' i heq
  cases heq
  exact .inr ⟨update_self _ _ _, h.empty np (.inl hnp), hnot⟩

theorem Inv.reap (h : Inv R s) (hp : s.status p = .zombie) :
    Inv R { s with status := update s.status p .unused } := by
  refine h.setStatus (h.not_forked (by rw [hp]; simp)) (fun _ => h.idle p (by rw [hp]; simp)) ?_
  exact fun _ => h.empty p (.inr hp)

theorem Inv.step (h : Inv R s) (e : Event) :
    (step R s e).Ensures (fun err => err = .panic "init exiting") (Inv R) := by
  have henter : ∀ {p : Proc} {pc : Pc}, s.status p = .alive → s.pc p = .user →
      (∀ f, refs (s.ofile p) pc f = refs (s.ofile p) .user f) → pc.token = none → pc.fresh = [] →
      (∀ np i, pc ≠ .fork np i) → PcOk (s.ofile p) pc → Inv R (s.go p pc) :=
    fun halive huser hrefs ht hf hfork => h.movedPc huser (.of_alive halive hfork) hrefs ht hf
  cases e with
  | «open» p o =>
    apply enter_ensures
    intro halive huser
    have hopen : ∀ o, Inv R (s.go p (.openFile o)) :=
      fun o => henter halive huser (fun _ => rfl) rfl rfl (by simp) trivial
    cases o with
    | none => exact h
    | some o =>
      dsimp only
      cases o.device with
      | none => exact hopen o
      | some major =>
        dsimp only
        split
        · exact h
        · exact hopen o
  | pipe p =>
    apply enter_ensures
    intro halive huser
    exact henter halive huser (fun _ => rfl) rfl rfl (by simp) trivial
  | dup p n =>
    apply enter_ensures
    intro halive huser
    cases harg : argfd (s.ofile p) n with
    | none => exact h
    | some r =>
      obtain ⟨fd', f⟩ := r
      have hfd' := argfd_eq_some harg
      dsimp only
      cases hfd : fdalloc (s.ofile p) f with
      | none => exact h
      | some r =>
        obtain ⟨fd, o⟩ := r
        obtain ⟨hnone, rfl⟩ := fdalloc_eq_some hfd
        have hne : fd' ≠ fd := by
          rintro rfl
          rw [hnone] at hfd'
          cases hfd'
        refine h.moved (.of_alive halive (by simp)) ?_ (by rw [huser]; rfl) (by simp [Pc.fresh])
          ⟨update_self _ _ _, fd', hne, by rw [update_of_ne hne, hfd']⟩
        intro g
        rw [huser]
        simp only [refs, Pc.unpaid, paid, update_idem]
        rw [← hnone, update_eq_self]
        rfl
  | close p n =>
    apply enter_ensures
    intro halive huser
    cases harg : argfd (s.ofile p) n with
    | none => exact h
    | some r =>
      obtain ⟨fd, f⟩ := r
      refine h.moved (.of_alive halive (by simp)) ?_ (by rw [huser]; rfl)
        (by simp [Pc.fresh]) trivial
      intro g
      have hclear := countOf_clear (argfd_eq_some harg) g
      rw [huser]
      simp only [refs, Pc.unpaid, Pc.held, paid, List.count_cons, List.count_nil, beq_iff_eq]
      omega
  | fork p np =>
    apply enter_ensures
    intro halive huser
    cases np with
    | none => exact h
    | some np =>
      dsimp only
      split
      · next hnp => exact h.startFork halive huser hnp
      · trivial
  | exit p =>
    apply enter_ensures
    intro halive huser
    split
    · rfl
    · refine henter halive huser (fun _ => rfl) rfl rfl (by simp) ?_
      intro j hj
      exact absurd hj (Nat.not_lt_zero _)
  | reap p =>
    rw [File.step]
    split
    · next hp => exact h.reap hp
    · trivial
  | go p copyout => exact (h.pcStep copyout p).weaken (fun _ hf => hf.elim)
  | restAlloc sole =>
    rw [File.step]
    cases hk : s.kmem.kalloc with
    | mk r k =>
      cases r with
      | none => exact h.withPool (h.pool.rest fun M hM => (kalloc_none hk hM).1)
      | some pg =>
        refine h.withPool (h.pool.rest fun M hM => ?_)
        rw [Multiset.add_cons]
        refine (kalloc_some hk hM).1 _ ?_
        cases sole <;> rfl
  | restDup pg =>
    rw [File.step]
    split
    · next hmem =>
      refine h.withPool (h.pool.rest fun M hM => ?_)
      rw [Multiset.add_cons]
      exact hM.dup (Multiset.mem_add.mpr (.inr hmem))
    · trivial
  | restFree x =>
    rw [File.step]
    split
    · next hmem =>
      obtain ⟨pages, hpages, hok⟩ := h.pool
      rw [← Multiset.cons_erase hmem, Multiset.add_cons] at hok
      apply Outcome.ensures_bind
      refine ((kfree_ensures hok).weaken (fun _ hf => hf.elim)).mono ?_
      intro k hk
      exact h.withPool ⟨pages, hpages, hk.1⟩
    · trivial

/-! ## Whole runs -/

theorem inv_boot (h : Boot R s) : Inv R s := by
  obtain ⟨hfile, hpipe, hofile, hstatus, hpc, hpool, hcount⟩ := h
  have hcounts : ∀ (o : Ofile) (f : FileId), (∀ fd, o fd = none) → countOf o f = 0 := by
    intro o f ho
    rw [countOf_eq_zero]
    intro fd
    rw [ho fd]
    simp
  refine ⟨?_, fun f _ => (hfile f).2, ?_, ?_, ⟨∅, ?_, ?_⟩, ?_, ?_, ?_, ?_, fun p _ => hpc p,
    fun p _ => hofile p⟩
  · intro f
    rw [(hfile f).1]
    symm
    refine congrArg Nat.cast (Finset.sum_eq_zero (fun q _ => ?_))
    rw [hpc q]
    simp [refs, Pc.unpaid, Pc.held, paid, hcounts _ f (hofile q)]
  · intro p f hf
    rw [hpc p] at hf
    cases hf
  · intro pg k
    have hzero : countOf s.tokens (pg, k) = 0 := by
      rw [countOf_eq_zero]
      rintro (f | p)
      · rw [show s.tokens (.inl f) = none from token_of_none (hfile f).2]
        simp
      · rw [show s.tokens (.inr p) = none from (congrArg Pc.token (hpc p)).trans rfl]
        simp
    rw [hzero, hpipe pg]
    cases k <;> rfl
  · intro pg
    rw [hpipe pg]
    simp
  · rw [Finset.empty_val, Multiset.map_zero, Multiset.zero_add]
    exact hpool
  · intro pg
    rw [hpipe pg, hcount]
    rfl
  · intro p
    rw [hpc p]
    trivial
  · intro p np i hp
    rw [hpc p] at hp
    cases hp
  · intro p q np i j hp
    rw [hpc p] at hp
    cases hp

theorem inv_of_reachable (hs : (sys R).Reachable s) : Inv R s := by
  refine hs.invariant (fun s h0 => inv_boot h0) ?_
  intro s e s' h hstep
  exact (h.step e).of_ok hstep

def IsEnd (s : State) (pi : Ppn) (writable : Bool) (f : FileId) : Prop :=
  0 < (s.file f).ref ∧ (s.file f).type = .pipe ∧ (s.file f).pipe = pi ∧
    (s.file f).writable = writable

theorem Inv.token_of_isEnd (h : Inv R s) {pi : Ppn} {writable : Bool} {f : FileId}
    (hf : IsEnd s pi writable f) : wanted (s.pipe pi) (some writable) = true := by
  obtain ⟨-, htype, hpipe, hw⟩ := hf
  have htok : s.tokens (.inl f) = some (pi, some writable) := by
    change token (s.file f) = _
    rw [token, if_pos htype, hpipe, hw]
  have hpos := countOf_pos htok
  have hcount := h.tokens pi (some writable)
  by_contra hno
  rw [if_neg hno] at hcount
  omega

theorem Inv.isOpen_iff (h : Inv R s) (huser : ∀ p, s.pc p = .user) {pi : Ppn} {e : Ends}
    (he : s.pipe pi = some e) (writable : Bool) :
    e.isOpen writable = true ↔ ∃ f, IsEnd s pi writable f := by
  have hcount := h.tokens pi (some writable)
  rw [he] at hcount
  constructor
  · intro hopen
    rw [if_pos (by simpa [wanted] using hopen)] at hcount
    have hne : ¬ ∀ i, s.tokens i ≠ some (pi, some writable) := by
      rw [← countOf_eq_zero]
      omega
    push Not at hne
    obtain ⟨f | p, hi⟩ := hne
    · have htype : (s.file f).type = .pipe := by
        by_contra hno
        have : s.tokens (.inl f) = none := if_neg hno
        rw [this] at hi
        cases hi
      have htok : s.tokens (.inl f) = some ((s.file f).pipe, some (s.file f).writable) :=
        if_pos htype
      rw [htok] at hi
      cases hi
      have href : (s.file f).ref ≠ 0 := by
        intro hzero
        rw [h.typed f hzero] at htype
        cases htype
      have hnn : (0 : ℤ) ≤ (s.file f).ref := by
        rw [h.ref f]
        exact Int.natCast_nonneg _
      exact ⟨f, by omega, htype, rfl, rfl⟩
    · rw [show s.tokens (.inr p) = none from (congrArg Pc.token (huser p)).trans rfl] at hi
      cases hi
  · rintro ⟨f, hf⟩
    have hw := h.token_of_isEnd hf
    rw [he] at hw
    simpa [wanted] using hw

theorem Inv.isSome_iff (h : Inv R s) (huser : ∀ p, s.pc p = .user) (pi : Ppn) :
    (s.pipe pi).isSome ↔ ∃ writable f, IsEnd s pi writable f := by
  constructor
  · intro hsome
    obtain ⟨e, he⟩ := Option.isSome_iff_exists.mp hsome
    have hzero : countOf s.tokens (pi, none) = 0 := by
      rw [countOf_eq_zero]
      rintro (f | p) hi
      · by_cases htype : (s.file f).type = .pipe
        · have htok : s.tokens (.inl f) = some ((s.file f).pipe, some (s.file f).writable) :=
            if_pos htype
          rw [htok] at hi
          cases hi
        · have : s.tokens (.inl f) = none := if_neg htype
          rw [this] at hi
          cases hi
      · rw [show s.tokens (.inr p) = none from (congrArg Pc.token (huser p)).trans rfl] at hi
        cases hi
    have hcount := h.tokens pi none
    rw [hzero, he] at hcount
    have hopen : e.isOpen true = true ∨ e.isOpen false = true := by
      clear he
      obtain ⟨r, w⟩ := e
      revert hcount
      revert r w
      decide
    rcases hopen with hopen | hopen
    · exact ⟨true, (h.isOpen_iff huser he true).mp hopen⟩
    · exact ⟨false, (h.isOpen_iff huser he false).mp hopen⟩
  · rintro ⟨writable, f, hf⟩
    have hw := h.token_of_isEnd hf
    cases hp : s.pipe pi with
    | none =>
      rw [hp] at hw
      cases hw
    | some e => rfl

/-- In every run no call panics in `filedup`, `fileclose` or `kfree` (the first process alone must
not exit) and no page is freed while a file refers to the pipe in it. Between calls the count of
each file is the number of descriptors for it, a pipe has an end open exactly while a referenced
file belongs to that end, and its page has been freed as often as it has been taken unless a file
still refers to it. -/
theorem refs_exact (hs : (sys R).Reachable s) :
    (∀ e err, step R s e = .fail err → err = .panic "init exiting") ∧
    (∀ p pi ret, s.pc p = .kfree pi ret → ∀ writable f, ¬ IsEnd s pi writable f) ∧
    ((∀ p, s.pc p = .user) →
      (∀ f, (s.file f).ref = countOf (fun x : Proc × Fd => s.ofile x.1 x.2) f) ∧
      (∀ pi e, s.pipe pi = some e → (e.readopen = true ↔ ∃ f, IsEnd s pi false f) ∧
        (e.writeopen = true ↔ ∃ f, IsEnd s pi true f)) ∧
      (∀ pi writable f, IsEnd s pi writable f →
        s.pipe pi ≠ none ∧ s.allocs pi = s.frees pi + 1) ∧
      ∀ pi, (∀ writable f, ¬ IsEnd s pi writable f) →
        s.pipe pi = none ∧ s.allocs pi = s.frees pi) := by
  have h := inv_of_reachable hs
  refine ⟨fun e err => (h.step e).of_fail, ?_, ?_⟩
  · intro p pi ret hp writable f hf
    have hpage : wanted (s.pipe pi) none = true :=
      h.wanted_of_token (by rw [hp]; rfl)
    have hclosed : s.pipe pi = some ⟨false, false⟩ := by simpa [wanted] using hpage
    have hopen := h.token_of_isEnd hf
    rw [hclosed] at hopen
    cases writable <;> cases hopen
  · intro huser
    refine ⟨?_, ?_, ?_, ?_⟩
    · intro f
      rw [h.ref f, State.owed, countOf_prod s.ofile f]
      refine congrArg Nat.cast (Finset.sum_congr rfl fun q _ => ?_)
      rw [huser q]
      rfl
    · intro pi e he
      exact ⟨h.isOpen_iff huser he false, h.isOpen_iff huser he true⟩
    · intro pi writable f hf
      have hsome : (s.pipe pi).isSome := (h.isSome_iff huser pi).mpr ⟨writable, f, hf⟩
      have hcount := h.counts pi
      rw [if_pos hsome] at hcount
      exact ⟨Option.isSome_iff_ne_none.mp hsome, hcount⟩
    · intro pi hno
      have hnone : ¬ (s.pipe pi).isSome := by
        rw [h.isSome_iff huser pi]
        rintro ⟨writable, f, hf⟩
        exact hno writable f hf
      have hcount := h.counts pi
      rw [if_neg hnone] at hcount
      exact ⟨by simpa using hnone, hcount⟩

def twoPages : Ram := ⟨1, 3, 0, by decide⟩

def twoPagesBoot : State where
  file := fun _ => ⟨.none, 0, false, false, 0, ⟨0, NINODE_pos⟩, 0, 0⟩
  pipe := fun _ => none
  kmem := ⟨fun _ => 0, [1, 2], fun _ => ByteBlock.fill PGSIZE 0, false⟩
  ofile := fun _ _ => none
  status := update (fun _ => .unused) initproc .alive
  pc := fun _ => .user
  rest := 0
  allocs := fun _ => 0
  frees := fun _ => 0

theorem boot_twoPagesBoot : Boot twoPages twoPagesBoot := by
  refine ⟨fun _ => ⟨rfl, rfl⟩, fun _ => rfl, fun _ _ => rfl, rfl, fun _ => rfl, ?_, rfl⟩
  refine ⟨fun pg _ => by simp [twoPagesBoot], ?_, ?_, by simp [twoPagesBoot],
    by simp [twoPagesBoot]⟩
  · rintro pg ⟨h1, h3⟩
    have hpg : ∀ n : ℕ, 1 ≤ n → n < 3 → n = 1 ∨ n = 2 := by omega
    rcases hpg pg h1 h3 with rfl | rfl <;> rfl
  · intro pg hpg
    have hcases : pg = 1 ∨ pg = 2 := by simpa [twoPagesBoot] using hpg
    rcases hcases with rfl | rfl <;> decide

def pipeAndDup : List Event :=
  .pipe initproc :: List.replicate 5 (.go initproc true) ++ [.dup initproc 0, .go initproc true]

def Pc.isUser : Pc → Bool
  | .user => true
  | _ => false

theorem refs_exact_pipeAndDup : ∃ s : State, (sys twoPages).Reachable s ∧
    (s.file ⟨0, by decide⟩).ref = 2 ∧
    countOf (fun x : Proc × Fd => s.ofile x.1 x.2) (⟨0, by decide⟩ : FileId) = 2 ∧
    ∃ f, IsEnd s 1 true f := by
  have hrun : (TransSys.exec (fun s e => (step twoPages s e).result) twoPagesBoot pipeAndDup).map
      (fun s => (decide (∀ p, (s.pc p).isUser = true),
        (s.file ⟨0, by decide⟩).ref, s.pipe 1)) = some (true, 2, some ⟨true, true⟩) := by
    decide +kernel
  obtain ⟨s, hs, h⟩ := Option.map_eq_some_iff.mp hrun
  simp only [Prod.mk.injEq, decide_eq_true_eq] at h
  obtain ⟨hpcs, href, hpipe⟩ := h
  have hreach : (sys twoPages).Reachable s :=
    (TransSys.Reachable.init boot_twoPagesBoot).run
      (TransSys.Run.of_exec (fun _ _ _ => Outcome.result_eq_some.mp) hs)
  have huser : ∀ p, s.pc p = .user := by
    intro p
    have hp := hpcs p
    unfold Pc.isUser at hp
    split at hp
    · assumption
    · cases hp
  obtain ⟨hrefs, hends, -⟩ := (refs_exact hreach).2.2 huser
  have hcount := hrefs ⟨0, by decide⟩
  rw [href] at hcount
  exact ⟨s, hreach, href, by exact_mod_cast hcount.symm, (hends 1 _ hpipe).2.mp rfl⟩

end Xv6.File
