import Xv6.Sched.Rooted

/-! # `wait` never misses an exit

`exit` wakes the parent while it holds `wait_lock` and becomes a zombie before it releases it; a
process goes to sleep in `wait` or `waitx` only after a scan of its children under the same lock.
`WaitInv` follows both through their loops: a process asleep in `wait` has no zombie child, except
`init` while `reparent` is waking it.
-/

namespace Xv6.Sched
set_option autoImplicit false
open Function (update update_self update_of_ne)
open Handover (Act)

/-- What a thread of `p` at `pc` knows about sleepers and zombies, because it holds `wait_lock`. -/
def WaitPlace (m : Mem) (p : Slot) : Pc → Prop
  | .wakeup chan _ (.reparent _ _) => chan = .proc initproc
  | .wakeup chan i (.exit _) => ∀ q, m.parent p = some q →
      chan = .proc q ∧ (m.SleepsOn q q → i ≤ q.val)
  | .exitLast _ => ∀ q, m.parent p = some q → ¬ m.SleepsOn q q
  | .waitScan _ i _ => ∀ c : Slot, c.val < i → m.parent c = some p → (m.proc c).state ≠ .zombie
  | .waitSleep _ => ∀ c, m.parent c = some p → (m.proc c).state ≠ .zombie
  | _ => True

theorem WaitPlace.of_lock {m : Mem} {p : Slot} {pc : Pc} (h : pc.lock ≠ some .wait) :
    WaitPlace m p pc := by
  cases pc with
  | wakeup chan i ret =>
    cases ret with
    | user | locked => trivial
    | reparent | exit => exact absurd rfl h
  | exitLast | waitScan | waitSleep => exact absurd rfl h
  | _ => trivial

/-- A change of the shared data that makes no new sleepers on processes and no new zombies, and
keeps the parent of a process that runs. -/
structure WaitCalm (m m' : Mem) : Prop where
  sleeps : ∀ q r, m'.SleepsOn q r → m.SleepsOn q r
  zombie : ∀ c q, m'.parent c = some q → (m'.proc c).state = .zombie →
    m.parent c = some q ∧ (m.proc c).state = .zombie
  parent : ∀ p q, (m.proc p).state.stage = .running → m'.parent p = some q → m.parent p = some q

theorem WaitPlace.mono {m m' : Mem} (hm : WaitCalm m m') {p : Slot} {pc : Pc}
    (hp : (m.proc p).state.stage = .running) (h : WaitPlace m p pc) : WaitPlace m' p pc := by
  cases pc with
  | wakeup chan i ret =>
    cases ret with
    | reparent status j => exact h
    | exit status =>
      intro q hq
      obtain ⟨hchan, hle⟩ := h q (hm.parent p q hp hq)
      exact ⟨hchan, fun hs => hle (hm.sleeps q q hs)⟩
    | _ => trivial
  | exitLast status =>
    intro q hq hs
    exact h q (hm.parent p q hp hq) (hm.sleeps q q hs)
  | waitScan x i hk =>
    intro c hc hpar hz
    obtain ⟨hpar, hz⟩ := hm.zombie c p hpar hz
    exact h c hc hpar hz
  | waitSleep x =>
    intro c hpar hz
    obtain ⟨hpar, hz⟩ := hm.zombie c p hpar hz
    exact h c hpar hz
  | _ => trivial

theorem Calm.waitCalm {m m' : Mem} (h : Calm m m') : WaitCalm m m' := by
  refine ⟨fun q r hs => h.sleepsOn hs, ?_, ?_⟩
  · intro c q hpar hz
    have hstage := (h.proc c).stage
    rw [hz] at hstage
    exact ⟨(h.proc c).parent.symm.trans hpar,
      ProcState.eq_of_stage hstage.symm (by simp [ProcState.stage])⟩
  · intro p q _ hq
    exact (h.proc p).parent.symm.trans hq

theorem WaitCalm.set {m m' : Mem} {q : Slot} (hother : ∀ r, r ≠ q → m'.proc r = m.proc r)
    (hs : (m'.proc q).state ≠ .sleeping) (hz : (m'.proc q).state ≠ .zombie)
    (hq : (m.proc q).state.stage ≠ .running) : WaitCalm m m' := by
  refine ⟨?_, ?_, ?_⟩
  · rintro r r' ⟨hsleep, hchan⟩
    have hr : r ≠ q := by
      rintro rfl
      exact hs hsleep
    rw [hother r hr] at hsleep hchan
    exact ⟨hsleep, hchan⟩
  · intro c r hpar hzombie
    have hc : c ≠ q := by
      rintro rfl
      exact hz hzombie
    rw [Mem.parent, hother c hc] at hpar
    rw [hother c hc] at hzombie
    exact ⟨hpar, hzombie⟩
  · intro p r hp hpar
    have hpq : p ≠ q := by
      rintro rfl
      exact hq hp
    rwa [Mem.parent, hother p hpq] at hpar

section
variable {H : Type}

/-- `p` is in `reparent`, in the loop that wakes `init`, and has not got beyond slot `i`. -/
def WakingInit (s : State H) (p : Slot) (i : ℕ) : Prop :=
  ∃ status j, (s.thread p).core = some (.wakeup (.proc initproc) i (.reparent status j))

structure WaitInv (s : State H) : Prop where
  self : ∀ q r, s.mem.SleepsOn q r → r = q
  lost : ∀ q c, s.mem.SleepsOn q q → s.mem.parent c = some q → (s.mem.proc c).state = .zombie →
    q = initproc ∧ ∃ p i, WakingInit s p i ∧ i ≤ q.val
  place : ∀ p pc, (s.thread p).core = some pc → WaitPlace s.mem p pc

variable {pc : Pc} {p q : Slot}

theorem Thread.at_of_core {t : Thread} (hwf : t.Wf) (hcore : t.core = some pc)
    (hlock : pc.lock ≠ none) : t = .at pc := by
  -- a place to go back to holds no lock
  have hnested : ∀ pc' : Pc, pc'.lock = none → pc'.Wf → pc'.core ≠ some pc := by
    intro pc' hno hwf' hcore'
    induction pc' with
    | wakeup chan i ret =>
      cases ret <;> simp only [Pc.core, Option.some.injEq, reduceCtorEq] at hcore' <;>
        exact hlock (hcore' ▸ hno)
    | tick _ ret ih | tickPush _ ret ih | tickYield ret ih => exact ih hwf'.1 hwf'.2 hcore'
    | _ =>
      simp only [Pc.core, Option.some.injEq, reduceCtorEq] at hcore' <;>
        exact hlock (hcore' ▸ hno)
  cases t with
  | «at» pc' =>
    cases pc' with
    | wakeup chan i ret =>
      cases ret <;> simp only [Thread.core, Pc.core, Option.some.injEq, reduceCtorEq] at hcore <;>
        rw [hcore]
    | tick _ ret | tickPush _ ret | tickYield ret => exact absurd hcore (hnested ret hwf.1 hwf.2)
    | _ =>
      simp only [Thread.core, Pc.core, Option.some.injEq, reduceCtorEq] at hcore <;> rw [hcore]
  | sched ret | resume ret =>
    cases ret with
    | yield pc' | sleep pc' => exact absurd hcore (hnested pc' hwf.1 hwf.2)
    | forkret | exit => cases hcore
  | absent => cases hcore

variable {b : Build} {s s' : State H}

theorem wait_lock_held (hI : Inv b s) (hT : Tree s) (hcore : (s.thread p).core = some pc)
    (hlock : pc.lock = some .wait) : ∃ h, s.run h = some p ∧ s.locks .wait = some h := by
  have hat := Thread.at_of_core (hI.threadWf p) hcore (by simp [hlock])
  rcases hT.placed p with ⟨h, hr⟩ | ⟨ret, hret⟩ | habs
  · exact ⟨h, hr, hI.holds (hI.at_lock hr hat) _ hlock⟩
  · exact absurd (hat.symm.trans hret) (by simp)
  · exact absurd (hat.symm.trans habs) (by simp)

theorem wait_lock_unique (hI : Inv b s) (hT : Tree s) {pc' : Pc} (hp : (s.thread p).core = some pc)
    (hlock : pc.lock = some .wait) (hq : (s.thread q).core = some pc')
    (hlock' : pc'.lock = some .wait) : p = q := by
  obtain ⟨h, hr, hheld⟩ := wait_lock_held hI hT hp hlock
  obtain ⟨h', hr', hheld'⟩ := wait_lock_held hI hT hq hlock'
  obtain rfl : h = h' := Option.some.inj (hheld.symm.trans hheld')
  exact Option.some.inj (hr.symm.trans hr')

/-! ## Steps without new sleepers and zombies -/

theorem WaitInv.keep (hW : WaitInv s) (hT : Tree s) (hm : WaitCalm s.mem s'.mem)
    (hcore : ∀ q pc, (s'.thread q).core = some pc →
      (s.thread q).core = some pc ∨ WaitPlace s'.mem q pc)
    (hwaking : ∀ p i, WakingInit s p i → i ≤ initproc.val → s'.mem.SleepsOn initproc initproc →
      ∃ p i, WakingInit s' p i ∧ i ≤ initproc.val) : WaitInv s' := by
  refine ⟨fun q r hs => hW.self q r (hm.sleeps q r hs), ?_, ?_⟩
  · intro q c hs hpar hz
    obtain ⟨hpar', hz'⟩ := hm.zombie c q hpar hz
    obtain ⟨hq, p, i, hp, hi⟩ := hW.lost q c (hm.sleeps q q hs) hpar' hz'
    rw [hq] at hi hs ⊢
    exact ⟨rfl, hwaking p i hp hi hs⟩
  · intro q pc hq
    rcases hcore q pc hq with hold | hnew
    · exact (hW.place q pc hold).mono hm (hT.place q pc hold).1
    · exact hnew

theorem WaitInv.move (hW : WaitInv s) (hT : Tree s) (hm : WaitCalm s.mem s'.mem) {t : Thread}
    (ht : s'.thread = update s.thread p t)
    (hcore : ∀ pc, t.core = some pc → (s.thread p).core = some pc ∨ WaitPlace s'.mem p pc)
    (hwaking : ∀ i, ¬ WakingInit s p i) : WaitInv s' := by
  refine hW.keep hT hm ?_ ?_
  · intro q pc hq
    rw [ht] at hq
    by_cases hqp : q = p
    · rw [hqp, update_self] at hq
      rw [hqp]
      exact hcore pc hq
    · rw [update_of_ne hqp] at hq
      exact .inl hq
  · intro q i hq hi _
    have hqp : q ≠ p := by
      rintro rfl
      exact hwaking i hq
    refine ⟨q, i, ?_, hi⟩
    obtain ⟨status, j, hcore⟩ := hq
    exact ⟨status, j, by rw [ht, update_of_ne hqp]; exact hcore⟩

theorem not_wakingInit (hp : s.thread p = .at pc)
    (hpc : ∀ chan i status j, pc.core ≠ some (.wakeup chan i (.reparent status j))) (i : ℕ) :
    ¬ WakingInit s p i := by
  rintro ⟨status, j, hcore⟩
  rw [hp] at hcore
  exact hpc _ _ _ _ hcore

/-! ## The other steps -/

theorem not_waking (hI : Inv b s) (hT : Tree s) (hp : s.thread p = .at pc)
    (hcore : pc.core = some pc) (hlock : pc.lock = some .wait)
    (hpc : ∀ chan i status j, pc ≠ .wakeup chan i (.reparent status j)) (q : Slot) (i : ℕ) :
    ¬ WakingInit s q i := by
  rintro ⟨status, j, hq⟩
  have hp' : (s.thread p).core = some pc := by rw [hp]; exact hcore
  obtain rfl := wait_lock_unique hI hT hp' hlock hq rfl
  exact hpc _ _ _ _ (Option.some.inj (hp'.symm.trans hq))

theorem WaitPlace.other (hI : Inv b s) (hT : Tree s) (hp : s.thread p = .at pc)
    (hcore : pc.core = some pc) (hlock : pc.lock = some .wait) {pc' : Pc}
    (hq : (s.thread q).core = some pc') (hqp : q ≠ p) (m : Mem) : WaitPlace m q pc' := by
  refine .of_lock fun hlock' => hqp ?_
  have hp' : (s.thread p).core = some pc := by rw [hp]; exact hcore
  exact (wait_lock_unique hI hT hp' hlock hq hlock').symm

section
variable (hW : WaitInv s) (hI : Inv b s) (hT : Tree s)
include hW hI hT

theorem WaitInv.reparent {status : ℤ} (hp : s.thread p = .at (.exitReparent status q.val))
    (hm : s'.mem = s.mem.set q fun x => { x with parent := some initproc })
    (ht : s'.thread = update s.thread p
      (.at (.wakeup (.proc initproc) 0 (.reparent status (q.val + 1))))) : WaitInv s' := by
  have hsleeps : ∀ r r', s'.mem.SleepsOn r r' → s.mem.SleepsOn r r' := by
    rintro r r' ⟨hs, hc⟩
    by_cases hr : r = q
    · rw [hm, hr, Mem.set_proc_self] at hs hc
      rw [hr]
      exact ⟨hs, hc⟩
    · rw [hm, Mem.set_proc_of_ne _ _ hr] at hs hc
      exact ⟨hs, hc⟩
  refine ⟨fun r r' hs => hW.self r r' (hsleeps r r' hs), ?_, ?_⟩
  · intro r c hs hpar hz
    by_cases hc : c = q
    · rw [hc, Mem.parent, hm, Mem.set_proc_self] at hpar
      refine ⟨(Option.some.inj hpar).symm, p, 0, ⟨status, q.val + 1, ?_⟩, Nat.zero_le _⟩
      rw [ht, update_self]
      rfl
    · rw [Mem.parent, hm, Mem.set_proc_of_ne _ _ hc] at hpar
      rw [hm, Mem.set_proc_of_ne _ _ hc] at hz
      obtain ⟨-, p', i, hp', -⟩ := hW.lost r c (hsleeps r r hs) hpar hz
      exact absurd hp' (not_waking hI hT hp rfl rfl (by simp) p' i)
  · intro r pc hr
    rw [ht] at hr
    by_cases hrp : r = p
    · rw [hrp, update_self] at hr
      cases hr
      rfl
    · rw [update_of_ne hrp] at hr
      exact WaitPlace.other hI hT hp rfl rfl hr hrp _

theorem WaitInv.exitLast {status : ℤ} (hp : s.thread p = .at (.exitLast status))
    (hm : s'.mem = s.mem.set p fun x => { x with xstate := status, state := .zombie })
    (ht : s'.thread = update s.thread p (.sched .exit)) : WaitInv s' := by
  have hplace := hW.place p (.exitLast status) (by rw [hp]; rfl)
  have hother : ∀ r, r ≠ p → s'.mem.proc r = s.mem.proc r := by
    intro r hr
    rw [hm, Mem.set_proc_of_ne _ _ hr]
  have hsleeps : ∀ r r', s'.mem.SleepsOn r r' → s.mem.SleepsOn r r' := by
    rintro r r' ⟨hs, hc⟩
    have hr : r ≠ p := by
      rintro rfl
      rw [hm, Mem.set_proc_self] at hs
      cases hs
    rw [hother r hr] at hs hc
    exact ⟨hs, hc⟩
  refine ⟨fun r r' hs => hW.self r r' (hsleeps r r' hs), ?_, ?_⟩
  · intro r c hs hpar hz
    by_cases hc : c = p
    · rw [hc, Mem.parent, hm, Mem.set_proc_self] at hpar
      exact absurd (hsleeps r r hs) (hplace r hpar)
    · rw [Mem.parent, hother c hc] at hpar
      rw [hother c hc] at hz
      obtain ⟨-, p', i, hp', -⟩ := hW.lost r c (hsleeps r r hs) hpar hz
      exact absurd hp' (not_waking hI hT hp rfl rfl (by simp) p' i)
  · intro r pc hr
    rw [ht] at hr
    by_cases hrp : r = p
    · rw [hrp, update_self] at hr
      cases hr
    · rw [update_of_ne hrp] at hr
      exact WaitPlace.other hI hT hp rfl rfl hr hrp _

theorem WaitInv.sleep {x : Bool} (hp : s.thread p = .at (.waitSleep x))
    (hm : s'.mem = s.mem.set p fun y => { y with chan := .proc p, state := .sleeping })
    (ht : s'.thread = update s.thread p (.sched (.sleep (.relockWait x)))) : WaitInv s' := by
  have hplace := hW.place p (.waitSleep x) (by rw [hp]; rfl)
  have hother : ∀ r, r ≠ p → s'.mem.proc r = s.mem.proc r := by
    intro r hr
    rw [hm, Mem.set_proc_of_ne _ _ hr]
  refine ⟨?_, ?_, ?_⟩
  · rintro r r' ⟨hs, hc⟩
    by_cases hr : r = p
    · rw [hm, hr, Mem.set_proc_self] at hc
      rw [hr]
      exact (Chan.proc.inj hc).symm
    · rw [hother r hr] at hs hc
      exact hW.self r r' ⟨hs, hc⟩
  · rintro r c ⟨hs, hchan⟩ hpar hz
    have hc : c ≠ p := by
      rintro rfl
      rw [hm, Mem.set_proc_self] at hz
      cases hz
    rw [Mem.parent, hother c hc] at hpar
    rw [hother c hc] at hz
    by_cases hr : r = p
    · rw [hr] at hpar
      exact absurd hz (hplace c hpar)
    · rw [hother r hr] at hs hchan
      obtain ⟨-, p', i, hp', -⟩ := hW.lost r c ⟨hs, hchan⟩ hpar hz
      exact absurd hp' (not_waking hI hT hp rfl rfl (by simp) p' i)
  · intro r pc hr
    rw [ht] at hr
    by_cases hrp : r = p
    · rw [hrp, update_self] at hr
      cases hr
    · rw [update_of_ne hrp] at hr
      exact WaitPlace.other hI hT hp rfl rfl hr hrp _

end

theorem WaitInv.wake (hW : WaitInv s) (hT : Tree s) {chan : Chan} {ret : WakeRet}
    (hp : s.thread p = .at (.wakeup chan q.val ret)) (hm : Calm s.mem s'.mem)
    (hq : ∀ r, chan = .proc r → ¬ s'.mem.SleepsOn q r)
    (ht : s'.thread = update s.thread p (.at (.wakeup chan (q.val + 1) ret))) : WaitInv s' := by
  have hself : (s'.thread p).core = (Pc.wakeup chan (q.val + 1) ret).core := by
    rw [ht, update_self]
    rfl
  have hothers : ∀ r, r ≠ p → s'.thread r = s.thread r := by
    intro r hr
    rw [ht, update_of_ne hr]
  -- a process that is still asleep is further on in the table
  have hnext : ∀ r : Slot, chan = .proc r → s'.mem.SleepsOn r r → q.val ≤ r.val →
      q.val + 1 ≤ r.val := by
    intro r hchan hs hle
    have hne : q.val ≠ r.val := by
      intro heq
      rw [← Fin.ext heq] at hs hchan
      exact hq q hchan hs
    omega
  refine hW.keep hT hm.waitCalm ?_ ?_
  · intro r pc hr
    by_cases hrp : r = p
    · right
      rw [hrp] at hr ⊢
      rw [hself] at hr
      cases ret with
      | user | locked => cases hr
      | reparent status j =>
        cases hr
        exact hW.place p (.wakeup chan q.val (.reparent status j)) (by rw [hp]; rfl)
      | exit status =>
        cases hr
        have hplace := hW.place p (.wakeup chan q.val (.exit status)) (by rw [hp]; rfl)
        intro r hpar
        obtain ⟨hchan, hle⟩ := hplace r ((hm.proc p).parent.symm.trans hpar)
        exact ⟨hchan, fun hs => hnext r hchan hs (hle (hm.sleepsOn hs))⟩
    · rw [hothers r hrp] at hr
      exact .inl hr
  · rintro r i ⟨status, j, hr⟩ hi hs
    by_cases hrp : r = p
    · rw [hrp, hp] at hr
      cases ret with
      | user | locked | exit => cases hr
      | reparent status' j' =>
        obtain ⟨hchan, rfl⟩ : chan = .proc initproc ∧ q.val = i := by
          simp only [Thread.core, Pc.core, Option.some.injEq, Pc.wakeup.injEq] at hr
          exact ⟨hr.1, hr.2.1⟩
        refine ⟨p, q.val + 1, ⟨status', j', ?_⟩, hnext initproc hchan hs hi⟩
        rw [hself, hchan]
        rfl
    · exact ⟨r, i, ⟨status, j, by rw [hothers r hrp]; exact hr⟩, hi⟩

end
end Xv6.Sched
