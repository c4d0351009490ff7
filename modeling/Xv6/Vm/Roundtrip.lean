import Xv6.Vm.Copyout

/-! # `copyout` and `copyin` on flat user memory

A `copyout` to pages that the user may access changes the bytes of its range and no other byte of
any process, however the pages are shared and wherever they lie.
-/

namespace Xv6.Vm
set_option autoImplicit false
open Kmem RefPool PageRange

theorem Page.byteAt_overwrite_of_lt (pg : Page) {off i a : ℕ} {src : List UInt8}
    (ha : a % PGSIZE = off + i) (hi : i < src.length) :
    some ((pg.overwrite off src).byteAt a) = src[i]? := by
  have hcond : off ≤ a % PGSIZE ∧ a % PGSIZE - off < src.length := by omega
  have hidx : a % PGSIZE - off = i := by omega
  rw [List.getElem?_eq_getElem hi, Option.some_inj, Page.byteAt, Page.overwrite, dif_pos hcond]
  simp [hidx]

theorem Page.byteAt_overwrite_of_ge (pg : Page) {off a : ℕ} {src : List UInt8}
    (ha : a % PGSIZE < off ∨ off + src.length ≤ a % PGSIZE) :
    (pg.overwrite off src).byteAt a = pg.byteAt a := by
  rw [Page.byteAt, Page.overwrite, dif_neg (by dsimp only; omega)]
  rfl

namespace Space
variable {m m₁ m' : Space} {dstva : ℕ} {src : List UInt8}

def byte (m : Space) (a : ℕ) : Option UInt8 := (m (a / PGSIZE)).map fun p => p.data.byteAt a

def User (m : Space) (v : ℕ) : Prop := ∃ p, m v = some p ∧ p.flags.u = true

/-- `m'` is `m` with the bytes `src` written from address `dstva` on. -/
structure Written (m : Space) (dstva : ℕ) (src : List UInt8) (m' : Space) : Prop where
  inside : ∀ i < src.length, m'.byte (dstva + i) = src[i]?
  outside : ∀ a, a < dstva ∨ dstva + src.length ≤ a → m'.byte a = m.byte a
  same : ∀ v, ¬ Touches PGSIZE dstva src.length v → m' v = m v
  user : ∀ v, Touches PGSIZE dstva src.length v → m'.User v

theorem Written.nil (m : Space) (dstva : ℕ) : Written m dstva [] m :=
  ⟨fun _ hi => absurd hi (Nat.not_lt_zero _), fun _ _ => rfl, fun _ _ => rfl,
    fun _ h => absurd h not_touches_zero⟩

theorem Written.page {p : UPage} (hp : m (dstva / PGSIZE) = some p) (hu : p.flags.u = true)
    (hsrc : src ≠ []) (hfit : src.length ≤ PGSIZE - dstva % PGSIZE) :
    Written m dstva src (Function.update m (dstva / PGSIZE)
      (some (p.copyout (dstva % PGSIZE) src))) := by
  have hdata : (p.copyout (dstva % PGSIZE) src).data = p.data.overwrite (dstva % PGSIZE) src := by
    unfold UPage.copyout
    split <;> rfl
  have hflags : (p.copyout (dstva % PGSIZE) src).flags.u = true := by
    unfold UPage.copyout
    split
    · rfl
    · exact hu
  have hpos : 0 < src.length := List.length_pos_iff.mpr hsrc
  have hva := Nat.div_add_mod dstva PGSIZE
  have hpage : ∀ v, Touches PGSIZE dstva src.length v ↔ v = dstva / PGSIZE := by
    intro v
    rw [touches_next PGSIZE_pos hpos, Nat.min_eq_right hfit, Nat.sub_self]
    exact or_iff_left not_touches_zero
  refine ⟨?_, ?_, ?_, ?_⟩
  · intro i hi
    have hdiv : (dstva + i) / PGSIZE = dstva / PGSIZE := div_of_lt (by omega)
    rw [byte, hdiv, Function.update_self, Option.map_some, hdata]
    exact p.data.byteAt_overwrite_of_lt (mod_of_lt (by omega)) hi
  · intro a ha
    by_cases hdiv : a / PGSIZE = dstva / PGSIZE
    · have haa := Nat.div_add_mod a PGSIZE
      rw [hdiv] at haa
      rw [byte, byte, hdiv, Function.update_self, hp, Option.map_some, Option.map_some, hdata,
        Page.byteAt_overwrite_of_ge _ (by omega)]
    · rw [byte, byte, Function.update_of_ne hdiv]
  · intro v hv
    rw [hpage] at hv
    exact Function.update_of_ne hv _ _
  · intro v hv
    rw [hpage] at hv
    subst hv
    exact ⟨_, Function.update_self _ _ _, hflags⟩

theorem Written.append {n : ℕ} (hn : n = min (PGSIZE - dstva % PGSIZE) src.length)
    (hsrc : src ≠ []) (h : Written m dstva (src.take n) m₁)
    (h' : Written m₁ ((dstva / PGSIZE + 1) * PGSIZE) (src.drop n) m') :
    Written m dstva src m' := by
  have hmod := Nat.mod_lt dstva PGSIZE_pos
  have hpos : 0 < src.length := List.length_pos_iff.mpr hsrc
  have htouch : ∀ v, Touches PGSIZE dstva src.length v ↔ v = dstva / PGSIZE ∨
      Touches PGSIZE ((dstva / PGSIZE + 1) * PGSIZE) (src.drop n).length v := by
    intro v
    rw [touches_next PGSIZE_pos hpos, List.length_drop, hn]
  have hfirst : ∀ v, Touches PGSIZE dstva (src.take n).length v ↔ v = dstva / PGSIZE := by
    intro v
    have htake : (src.take n).length = n := by rw [List.length_take]; omega
    rw [htake, touches_next PGSIZE_pos (by omega),
      show n - min (PGSIZE - dstva % PGSIZE) n = 0 by omega]
    exact or_iff_left not_touches_zero
  have hnext : (dstva / PGSIZE + 1) * PGSIZE = dstva + (PGSIZE - dstva % PGSIZE) :=
    next_eq PGSIZE_pos
  have hsame := h'.same
  have hinside := h'.inside
  have houtside := h'.outside
  have hout := h.outside
  rw [List.length_take] at hout
  rw [List.length_drop] at hinside houtside
  rw [hnext] at hinside houtside
  refine ⟨?_, ?_, ?_, ?_⟩
  · intro i hi
    by_cases hin : i < n
    · rw [houtside _ (Or.inl (by omega)), h.inside i (by rw [List.length_take]; omega),
        List.getElem?_take_of_lt hin]
    · have := hinside (i - n) (by omega)
      rwa [show dstva + (PGSIZE - dstva % PGSIZE) + (i - n) = dstva + i by omega,
        List.getElem?_drop, Nat.add_sub_cancel' (by omega)] at this
  · intro a ha
    rw [houtside a (by omega), hout a (by omega)]
  · intro v hv
    rw [htouch, not_or] at hv
    rw [hsame v hv.2, h.same v (by rw [hfirst]; exact hv.1)]
  · intro v hv
    rcases (htouch v).mp hv with rfl | hrest
    · have hnot : ¬ Touches PGSIZE ((dstva / PGSIZE + 1) * PGSIZE) (src.drop n).length
          (dstva / PGSIZE) := fun ht => absurd (ht.lt_of_rest PGSIZE_pos) (lt_irrefl _)
      rw [User, hsame _ hnot]
      exact h.user _ ((hfirst _).mpr rfl)
    · exact h'.user v hrest

theorem copyoutLoop_user (fuel : ℕ) (hsrc : src ≠ []) (hu : m.User (dstva / PGSIZE)) :
    ∃ m₁ n, n = min (PGSIZE - dstva % PGSIZE) src.length ∧ Written m dstva (src.take n) m₁ ∧
      src.take n ≠ [] ∧
      (∀ v, Touches PGSIZE dstva (src.take n).length v → m.User v) ∧
      copyoutLoop (fuel + 1) dstva src m =
        copyoutLoop fuel ((dstva / PGSIZE + 1) * PGSIZE) (src.drop n) m₁ := by
  have hmod := Nat.mod_lt dstva PGSIZE_pos
  have hpos : 0 < src.length := List.length_pos_iff.mpr hsrc
  obtain ⟨p, hp, hpu⟩ := hu
  have hne : src.take (min (PGSIZE - dstva % PGSIZE) src.length) ≠ [] := by
    simp [hsrc]
    omega
  have hfit : (src.take (min (PGSIZE - dstva % PGSIZE) src.length)).length ≤
      PGSIZE - dstva % PGSIZE := by
    rw [List.length_take]
    omega
  refine ⟨_, _, rfl, Written.page hp hpu hne hfit, hne, fun v hv => ?_, ?_⟩
  · rw [touches_next PGSIZE_pos (List.length_pos_iff.mpr hne), Nat.min_eq_right hfit,
      Nat.sub_self, or_iff_left not_touches_zero] at hv
    rw [hv]
    exact ⟨p, hp, hpu⟩
  · rw [copyoutLoop, if_neg hsrc]
    dsimp only
    rw [copyoutPage_eq, hp, Option.bind_some, if_pos hpu]

theorem copyoutLoop_written (fuel : ℕ) (hfuel : src.length ≤ fuel)
    (huser : ∀ v, Touches PGSIZE dstva src.length v → m.User v) :
    Written m dstva src (copyoutLoop fuel dstva src m).2 := by
  induction fuel generalizing dstva src m with
  | zero =>
    obtain rfl : src = [] := List.eq_nil_of_length_eq_zero (by omega)
    exact .nil m dstva
  | succ fuel ih =>
    by_cases hsrc : src = []
    · subst hsrc
      rw [copyoutLoop, if_pos rfl]
      exact .nil m dstva
    have hpos : 0 < src.length := List.length_pos_iff.mpr hsrc
    have hmod := Nat.mod_lt dstva PGSIZE_pos
    obtain ⟨m₁, n, hn, hfirst, -, -, heq⟩ :=
      copyoutLoop_user fuel hsrc (huser _ (touches_head hpos))
    rw [heq]
    refine hfirst.append hn hsrc (ih (by rw [List.length_drop]; omega) fun v hv => ?_)
    have hlt := hv.lt_of_rest PGSIZE_pos
    have hout : ¬ Touches PGSIZE dstva (src.take n).length v := by
      rintro ⟨i, hi, rfl⟩
      rw [List.length_take] at hi
      rw [div_of_lt (by omega)] at hlt
      omega
    rw [User, hfirst.same v hout]
    refine huser v ((touches_next PGSIZE_pos hpos).mpr (Or.inr ?_))
    rwa [List.length_drop, hn] at hv

/-! ### A copy that stops

`copyout` has written to the pages before the first one that it may not write to. -/

/-- Some bytes of user pages have been replaced by bytes of `src`. -/
structure Patched (m : Space) (src : List UInt8) (m' : Space) : Prop where
  user : ∀ v, m'.User v ↔ m.User v
  byte : ∀ a, m'.byte a = m.byte a ∨ ∃ b ∈ src, m'.byte a = some b

theorem Patched.refl (m : Space) (src : List UInt8) : Patched m src m :=
  ⟨fun _ => Iff.rfl, fun _ => .inl rfl⟩

theorem Patched.trans {l1 l2 : List UInt8} (h : Patched m l1 m₁) (h' : Patched m₁ l2 m')
    (h1 : l1 ⊆ src) (h2 : l2 ⊆ src) : Patched m src m' := by
  refine ⟨fun v => (h'.user v).trans (h.user v), fun a => ?_⟩
  rcases h'.byte a with ha | ⟨b, hb, ha⟩
  · rcases h.byte a with ha' | ⟨b, hb, ha'⟩
    · exact .inl (ha.trans ha')
    · exact .inr ⟨b, h1 hb, ha.trans ha'⟩
  · exact .inr ⟨b, h2 hb, ha⟩

theorem Written.patched (h : Written m dstva src m')
    (huser : ∀ v, Touches PGSIZE dstva src.length v → m.User v) : Patched m src m' := by
  refine ⟨fun v => ?_, fun a => ?_⟩
  · by_cases hv : Touches PGSIZE dstva src.length v
    · exact iff_of_true (h.user v hv) (huser v hv)
    · rw [User, h.same v hv, ← User]
  · by_cases ha : a < dstva ∨ dstva + src.length ≤ a
    · exact .inl (h.outside a ha)
    · right
      have hin := h.inside (a - dstva) (by omega)
      rw [Nat.add_sub_cancel' (by omega), List.getElem?_eq_getElem (by omega)] at hin
      exact ⟨_, List.getElem_mem _, hin⟩

theorem copyoutLoop_not_user (fuel : ℕ) (hu : ¬ m.User (dstva / PGSIZE)) :
    (copyoutLoop fuel dstva src m).2 = m := by
  cases fuel with
  | zero => rfl
  | succ fuel =>
    rw [copyoutLoop]
    split
    · rfl
    dsimp only
    rw [copyoutPage_eq]
    cases hp : m (dstva / PGSIZE) with
    | none => rfl
    | some p =>
      rw [Option.bind_some, if_neg]
      intro hpu
      exact hu ⟨p, hp, hpu⟩

theorem copyoutLoop_patched (fuel : ℕ) : Patched m src (copyoutLoop fuel dstva src m).2 := by
  induction fuel generalizing dstva src m with
  | zero => exact .refl m src
  | succ fuel ih =>
    by_cases hsrc : src = []
    · rw [copyoutLoop, if_pos hsrc]
      exact .refl m src
    by_cases hu : m.User (dstva / PGSIZE)
    · obtain ⟨m₁, n, -, hfirst, -, huser, heq⟩ := copyoutLoop_user fuel hsrc hu
      rw [heq]
      exact (hfirst.patched huser).trans ih (List.take_subset _ _) (List.drop_subset _ _)
    · rw [copyoutLoop_not_user _ hu]
      exact .refl m src

theorem copyout_first (hsrc : src ≠ []) (hu : m.User (dstva / PGSIZE)) :
    ∃ b ∈ src, (m.copyout dstva src).2.byte dstva = some b := by
  obtain ⟨c, l, rfl⟩ := List.exists_cons_of_ne_nil hsrc
  obtain ⟨m₁, n, -, hfirst, hne, -, heq⟩ := copyoutLoop_user l.length hsrc hu
  rw [copyout, List.length_cons, heq]
  have hbyte := hfirst.inside 0 (List.length_pos_iff.mpr hne)
  have hn : 0 < n := by
    rw [Nat.pos_iff_ne_zero]
    rintro rfl
    exact hne rfl
  rw [List.getElem?_take_of_lt hn, Nat.add_zero, List.getElem?_cons_zero] at hbyte
  rcases (copyoutLoop_patched l.length).byte dstva with hkeep | ⟨b, hb, hwrite⟩
  · exact ⟨c, List.mem_cons_self, hkeep.trans hbyte⟩
  · exact ⟨b, List.drop_subset _ _ hb, hwrite⟩

theorem load_eq_byte {a : ℕ} {p : UPage} (hp : m (a / PGSIZE) = some p) (hu : p.flags.u = true)
    (hr : p.flags.r = true) : m.load a = m.byte a := by
  simp [load, byte, hp, hu, hr]

end Space

section
variable {R : Ram} {M : Multiset (RefPool.Share Ppn)} {k k' : Kmem} {pt pt' : PageTable}
  {v n n' dstva : ℕ} {src : List UInt8}

theorem PtOk.user_iff (hok : PtOk pt n) (hE : KOk R k (pt.shares + M)) :
    pt.User v ↔ (pt.space k).User v := by
  constructor
  · rintro ⟨-, -, hvalid, hu, -⟩
    have hlt : v < TRAPFRAME := by
      by_contra hge
      rw [(hok.high v (by omega)).1] at hu
      cases hu
    exact ⟨_, space_eq_some.mpr ⟨hlt, hvalid, rfl⟩, hu⟩
  · rintro ⟨p, hp, hu⟩
    obtain ⟨hlt, hvalid, rfl⟩ := space_eq_some.mp hp
    exact ⟨by simp only [TRAPFRAME] at hlt; omega, hok.reaches hvalid, hvalid, hu,
      (allocatable_of_valid hE hlt hvalid).ne_zero⟩

variable {a : ℕ}

theorem PtOk.load_eq_byte (hok : PtOk pt n) (hu : (pt.space k).User (a / PGSIZE)) :
    (pt.space k).load a = (pt.space k).byte a := by
  obtain ⟨p, hp, hpu⟩ := hu
  obtain ⟨-, hvalid, rfl⟩ := space_eq_some.mp hp
  exact Space.load_eq_byte hp hpu (hok.leaf _ hvalid)

theorem byte_eq_userByte (hu : (pt.space k).User (a / PGSIZE)) :
    (pt.space k).byte a = some (userByte k pt a) := by
  obtain ⟨p, hp, -⟩ := hu
  obtain ⟨-, -, rfl⟩ := space_eq_some.mp hp
  rw [Space.byte, hp]
  rfl

theorem Space.Written.userLoad (h : Written (pt.space k) dstva src (pt'.space k')) (hok : PtOk pt n)
    (hok' : PtOk pt' n')
    (hu : ∀ v, Touches PGSIZE dstva src.length v → (pt.space k).User v)
    (ha : a < dstva ∨ dstva + src.length ≤ a) :
    Xv6.Vm.userLoad k' pt' a = Xv6.Vm.userLoad k pt a := by
  rw [hok.userLoad_eq, hok'.userLoad_eq]
  by_cases ht : Touches PGSIZE dstva src.length (a / PGSIZE)
  · rw [hok'.load_eq_byte (h.user _ ht), hok.load_eq_byte (hu _ ht), h.outside a ha]
  · rw [Space.load, Space.load, h.same _ ht]

theorem Space.Written.copyin (h : Written (pt.space k) dstva src (pt'.space k'))
    (hok' : PtOk pt' n') (hE' : KOk R k' (pt'.shares + M)) :
    Xv6.Vm.copyin k' pt' dstva src.length = some src := by
  have hrange : pt'.UserRange dstva src.length := fun v hv => (hok'.user_iff hE').mpr (h.user v hv)
  rw [copyin_of_userRange hrange, Option.some_inj]
  apply List.ext_getElem (by simp)
  intro i hi hi'
  have hbyte := h.inside i hi'
  rw [byte_eq_userByte (h.user _ ⟨i, hi', rfl⟩), List.getElem?_eq_getElem hi',
    Option.some_inj] at hbyte
  simpa [userBytes] using hbyte

end

section
variable {I : Type} [Fintype I] [DecidableEq I] {R : Ram} {s : State I}

/-- If all pages of the range are mapped with `PTE_U` and memory suffices for the copies, `copyout`
followed by `copyin` returns the bytes, and every other byte that this or another process can load
is as before. On any page table, `copyin` succeeds exactly if all pages of its range are mapped with
`PTE_U`, and then delivers the bytes of the range in order. -/
theorem copyout_copyin_flat (hs : (sys R I).Reachable s) {i : I} {p : Proc}
    (hp : s.slot i = .live p) (dstva : ℕ) (src : List UInt8)
    (huser : p.pt.UserRange dstva src.length)
    (hmem : ∀ v, Touches PGSIZE dstva src.length v → Supplied s.kmem p.pt (dstva / PGSIZE) v) :
    (∃ k' pt', copyout R dstva src s.kmem p.pt = .ok (true, k', pt') ∧
      copyin k' pt' dstva src.length = some src ∧
      (∀ a, a < dstva ∨ dstva + src.length ≤ a →
        userLoad k' pt' a = userLoad s.kmem p.pt a) ∧
      ∀ j q, j ≠ i → s.slot j = .live q → ∀ a, userLoad k' q.pt a = userLoad s.kmem q.pt a) ∧
    ∀ (k : Kmem) (pt : PageTable) (srcva len : ℕ),
      ((copyin k pt srcva len).isSome = true ↔ pt.UserRange srcva len) ∧
      (pt.UserRange srcva len → copyin k pt srcva len = some (userBytes k pt srcva len)) := by
  have hinv := reachable_inv hs
  have hok := hinv.live_ok hp
  have hE := hinv.exact_live hp
  constructor
  · have hwritable : Writable s.kmem p.pt dstva src.length := fun v hv => ⟨huser v hv, hmem v hv⟩
    have hsafe : CopyoutSafe s.kmem p.pt dstva src.length := by
      intro w hw _ _
      exact ⟨(huser w hw).2.1, fun _ => (huser w hw).2.2.2.1, hmem w hw⟩
    obtain ⟨⟨ok, k', pt'⟩, heq, hret, -⟩ := (copyout_spec _ _ hok hE).1 hsafe
    obtain rfl : ok = true := hret.mpr hwritable
    obtain ⟨-, -, hpost⟩ := (copyout_ensures hok hE).of_ok heq
    have hspace : ∀ v, Touches PGSIZE dstva src.length v →
        ∃ q, p.pt.space s.kmem v = some q ∧ q.flags.u = true := fun v hv =>
      (hok.user_iff hE).mp (huser v hv)
    have hwritten : Space.Written (p.pt.space s.kmem) dstva src (pt'.space k') := by
      rw [hpost.space]
      exact Space.copyoutLoop_written src.length le_rfl hspace
    refine ⟨k', pt', heq, hwritten.copyin hpost.ok hpost.exact,
      fun a ha => hwritten.userLoad hok hpost.ok hspace ha, fun j q hj hq a => ?_⟩
    have hle : q.pt.shares ≤ p.beside (s.rest {i}) := by
      refine le_trans ?_ (p.le_beside _)
      refine le_trans ?_ (shares_le_rest s (by simpa using hj))
      rw [hq]
      exact le_trans (Multiset.le_add_right _ _) (Multiset.le_cons_self _ _)
    have hokq := hinv.live_ok hq
    rw [hokq.userLoad_eq, hokq.userLoad_eq, space_keeps hpost.keeps hle]
  · intro k pt srcva len
    refine ⟨⟨fun h => ?_, fun h => ?_⟩, copyin_of_userRange⟩
    · by_contra hnot
      rw [copyin_of_not_userRange hnot] at h
      cases h
    · rw [copyin_of_userRange h]
      rfl

end

theorem copyout_copyin_flat_fork : ∃ (s : State (Fin 2)) (p : Proc),
    (sys smallRam (Fin 2)).Reachable s ∧ s.slot 1 = .live p ∧ (p.pt.pte 0).flags.cow = true ∧
    ∃ k' pt', copyout smallRam 5 [1, 2] s.kmem p.pt = .ok (true, k', pt') ∧
      copyin k' pt' 5 2 = some [1, 2] := by
  obtain ⟨s, p, hreach, hp, hu, hcow, hfree⟩ := forked_child
  obtain ⟨⟨k', pt', heq, hin, -⟩, -⟩ := copyout_copyin_flat hreach hp 5 [1, 2]
    (fun v hv => by rwa [touches_page_zero hv])
    (fun v hv _ => by
      rw [touches_page_zero hv, show 5 / PGSIZE = 0 by simp [PGSIZE]]
      simpa [taken] using List.length_pos_iff.mpr hfree)
  exact ⟨s, p, hreach, hp, hcow, k', pt', heq, hin⟩

end Xv6.Vm
