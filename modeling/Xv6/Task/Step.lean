import Xv6.Task.Table
import Xv6.Vm.Shape

/-! # The system of the process calls

Each step is one call, or what the rest of the kernel does between calls: user memory, the states
and fields that the schedulers write, and open files change in any way that they may. A clock
interrupt is one step for `ticks++` and one for each slot that `update_time` visits, since other
harts go on between them.
-/

namespace Xv6.Task
set_option autoImplicit false
open Function (update update_self)
open Xv6.Sched (Slot Mem ProcState initproc)
open Outcome (result_eq_some bind_eq_ok)

def Active (st : ProcState) : Prop := st = .sleeping ∨ st = .runnable ∨ st = .running

instance (st : ProcState) : Decidable (Active st) := inferInstanceAs (Decidable (_ ∨ _ ∨ _))

/-- What schedulers, `sleep`, `wakeup` and `kill` may do to the fields of a process: they do not
write its identity, its exit status or its times. -/
def MayBecome (x y : Sched.Proc) : Prop :=
  (y.state = x.state ∨ Active x.state ∧ Active y.state) ∧ y.pid = x.pid ∧ y.parent = x.parent ∧
    y.xstate = x.xstate ∧ y.rtime = x.rtime ∧ y.ctime = x.ctime ∧ y.trapframe = x.trapframe ∧
    y.pagetable = x.pagetable

instance (x y : Sched.Proc) : Decidable (MayBecome x y) := inferInstanceAs (Decidable (_ ∧ _))

def Plain : Vm.Event Slot → Bool
  | .allocproc _ | .fork _ _ | .freeproc _ => false
  | _ => true

inductive Event where
  | tick
  | visit
  | fork (p : Slot)
  | exit (p : Slot) (status : ℤ) (file inode : ℕ → ℤ)
  | wait (p : Slot) (addr : ℕ)
  | waitx (p : Slot) (addr addr1 addr2 : ℕ) (l : Locals)
  | setPriority (p : Slot) (priority pid : ℤ)
  | memory (e : Vm.Event Slot)
  /-- The fields of `proc[q]` become `x`. -/
  | fields (q : Slot) (x : Sched.Proc)
  /-- Process `p` opens and closes files or changes its directory. -/
  | files (p : Slot) (ofile : Fin NOFILE → Option ℕ) (cwd : Option ℕ) (file inode : ℕ → ℤ)

def byRunning {α : Type} (p : Slot) (s : State) (r : Outcome Failure α) : Outcome Failure α :=
  if (s.mem.proc p).state = .running then r else .blocked

def step (R : Vm.Ram) (s : State) : Event → Outcome Failure State
  | .tick =>
    if s.visit = NPROC then
      pure { s with mem := { s.mem with ticks := s.mem.ticks + 1 }, visit := 0 }
    else .blocked
  | .visit =>
    if h : s.visit < NPROC then pure { updateTime ⟨s.visit, h⟩ s with visit := s.visit + 1 }
    else .blocked
  | .fork p => byRunning p s do
    let (_, s) ← fork R p s
    pure s
  | .exit p status file inode => byRunning p s (exit p status file inode s)
  | .wait p addr => byRunning p s do
    let (_, s) ← wait R p addr s
    pure s
  | .waitx p addr addr1 addr2 l => byRunning p s do
    let (_, s) ← sysWaitx R p addr addr1 addr2 l s
    pure s
  | .setPriority p priority pid => byRunning p s (pure (setPriority p priority pid s))
  | .memory e =>
    if Plain e then do
      let vm ← Vm.step R s.vm e
      pure { s with vm := vm }
    else .blocked
  | .fields q x =>
    if MayBecome (s.mem.proc q) x then pure (s.setMem q fun _ => x) else .blocked
  | .files p ofile cwd file inode =>
    pure ({ s with file := file, inode := inode }.setExtra p fun x =>
      { x with ofile := ofile, cwd := cwd })

/-- The state after `userinit`: the first process has a page of memory and is `RUNNABLE`. -/
def Booted (R : Vm.Ram) (s : State) : Prop :=
  (∃ data n initcode, Vm.boot R data n initproc initcode = .ok s.vm ∧ s.vm.kmem.oom = false) ∧
    s.mem = Sched.bootMem ∧ s.visit = NPROC

def sys (R : Vm.Ram) : TransSys State Event where
  init := Booted R
  step := fun s e s' => step R s e = .ok s'

/-- The state after booting on an empty memory with one kernel page. -/
def bootState (R : Vm.Ram) : Option State :=
  (Vm.boot R (fun _ => ByteBlock.fill Vm.PGSIZE 0) 1 initproc []).result.bind fun vm =>
    if vm.kmem.oom then none
    else some { vm := vm, mem := Sched.bootMem, extra := fun _ => .zero, file := fun _ => 0
                inode := fun _ => 0, visit := NPROC }

theorem booted_of_bootState {R : Vm.Ram} {s : State} (h : bootState R = some s) : Booted R s := by
  obtain ⟨vm, hvm, hs⟩ := Option.bind_eq_some_iff.mp h
  have hboot := result_eq_some.mp hvm
  split at hs
  · cases hs
  · next hoom =>
    cases hs
    exact ⟨⟨_, _, [], hboot, by simpa using hoom⟩, rfl, rfl⟩

def runFrom (R : Vm.Ram) (es : List (State → Event)) : Option State :=
  (bootState R).bind fun s => TransSys.exec (fun s e => (step R s (e s)).result) s es

theorem reachable_of_runFrom {R : Vm.Ram} {es : List (State → Event)} {t : State}
    (h : runFrom R es = some t) : (sys R).Reachable t := by
  obtain ⟨s, hs, ht⟩ := Option.bind_eq_some_iff.mp h
  refine TransSys.Reachable.of_steps (fun s e s' he => ?_) (.init (booted_of_bootState hs)) ht
  exact ⟨e s, result_eq_some.mp he⟩

def firstChild : Slot := ⟨1, one_lt_NPROC⟩

def dispatch (q : Slot) (s : State) : Event := .fields q { s.mem.proc q with state := .running }

/-! ## What each step is -/

section
variable {R : Vm.Ram} {s s' : State} {p q : Slot}

theorem byRunning_ok {α : Type} {r : Outcome Failure α} {a : α} (h : byRunning p s r = .ok a) :
    (s.mem.proc p).state = .running ∧ r = .ok a := by
  unfold byRunning at h
  split at h
  · next hp => exact ⟨hp, h⟩
  · cases h

inductive Stepped (R : Vm.Ram) (s : State) : Event → State → Prop
  | tick (hv : s.visit = NPROC) :
      Stepped R s .tick { s with mem := { s.mem with ticks := s.mem.ticks + 1 }, visit := 0 }
  | visit (hv : s.visit < NPROC) :
      Stepped R s .visit { updateTime ⟨s.visit, hv⟩ s with visit := s.visit + 1 }
  | fork {p : Slot} {r : Option ℕ} {s' : State} (hrun : (s.mem.proc p).state = .running)
      (hfork : fork R p s = .ok (r, s')) : Stepped R s (.fork p) s'
  | exit {p : Slot} {status : ℤ} {file inode : ℕ → ℤ} {s' : State}
      (hrun : (s.mem.proc p).state = .running) (hexit : exit p status file inode s = .ok s') :
      Stepped R s (.exit p status file inode) s'
  | wait {p : Slot} {addr : ℕ} {r : Ret} {s' : State} (hrun : (s.mem.proc p).state = .running)
      (hwait : wait R p addr s = .ok (r, s')) : Stepped R s (.wait p addr) s'
  | waitx {p : Slot} {addr addr1 addr2 : ℕ} {l : Locals} {r : Ret} {s' : State}
      (hrun : (s.mem.proc p).state = .running)
      (hwait : sysWaitx R p addr addr1 addr2 l s = .ok (r, s')) :
      Stepped R s (.waitx p addr addr1 addr2 l) s'
  | setPriority {p : Slot} {priority pid : ℤ} (hrun : (s.mem.proc p).state = .running) :
      Stepped R s (.setPriority p priority pid) (setPriority p priority pid s)
  | memory {e : Vm.Event Slot} {vm : Vm.State Slot} (he : Plain e = true)
      (hvm : Vm.step R s.vm e = .ok vm) : Stepped R s (.memory e) { s with vm := vm }
  | fields {q : Slot} {x : Sched.Proc} (hx : MayBecome (s.mem.proc q) x) :
      Stepped R s (.fields q x) (s.setMem q fun _ => x)
  | files {p : Slot} {ofile : Fin NOFILE → Option ℕ} {cwd : Option ℕ} {file inode : ℕ → ℤ} :
      Stepped R s (.files p ofile cwd file inode)
        ({ s with file := file, inode := inode }.setExtra p fun x =>
          { x with ofile := ofile, cwd := cwd })

theorem step_stepped {e : Event} (h : step R s e = .ok s') : Stepped R s e s' := by
  cases e with
  | tick =>
    simp only [step] at h
    split at h
    · cases h
      exact .tick ‹_›
    · cases h
  | visit =>
    simp only [step] at h
    split at h
    · cases h
      exact .visit ‹_›
    · cases h
  | fork p =>
    obtain ⟨hrun, h⟩ := byRunning_ok h
    obtain ⟨⟨r, s1⟩, hfork, h⟩ := bind_eq_ok h
    cases h
    exact .fork hrun hfork
  | exit p status file inode =>
    obtain ⟨hrun, h⟩ := byRunning_ok h
    exact .exit hrun h
  | wait p addr =>
    obtain ⟨hrun, h⟩ := byRunning_ok h
    obtain ⟨⟨r, s1⟩, hwait, h⟩ := bind_eq_ok h
    cases h
    exact .wait hrun hwait
  | waitx p addr addr1 addr2 l =>
    obtain ⟨hrun, h⟩ := byRunning_ok h
    obtain ⟨⟨r, s1⟩, hwait, h⟩ := bind_eq_ok h
    cases h
    exact .waitx hrun hwait
  | setPriority p priority pid =>
    obtain ⟨hrun, h⟩ := byRunning_ok h
    cases h
    exact .setPriority hrun
  | memory e =>
    simp only [step] at h
    split at h
    · obtain ⟨vm, hvm, h⟩ := bind_eq_ok h
      cases h
      exact .memory ‹_› hvm
    · cases h
  | fields q x =>
    simp only [step] at h
    split at h
    · cases h
      exact .fields ‹_›
    · cases h
  | files p ofile cwd file inode =>
    cases h
    exact .files

/-! ## What each call changes -/

theorem copyTo_ok {addr : ℕ} {src : List UInt8} {ok : Bool}
    (h : copyTo R p addr src s = .ok (ok, s')) : ∃ x k pt, s.vm.running p = some x ∧
      Vm.copyout R addr src s.vm.kmem x.pt = .ok (ok, k, pt) ∧
      s' = { s with vm := s.vm.setSlot p (.live { x with pt := pt }) k } := by
  unfold copyTo at h
  split at h
  · cases h
  next x hx =>
  obtain ⟨⟨ok, k, pt⟩, hcopy, h⟩ := bind_eq_ok h
  cases h
  exact ⟨x, k, pt, hx, hcopy, rfl⟩

theorem freeproc_ok (h : freeproc R q s = .ok s') : ∃ y k, s.vm.running q = some y ∧
    Vm.freeproc R y s.vm.kmem = .ok k ∧
    s' = freeFields q { s with vm := s.vm.setSlot q .unused k } := by
  unfold freeproc at h
  split at h
  · cases h
  next y hy =>
  obtain ⟨k, hk, h⟩ := bind_eq_ok h
  cases h
  exact ⟨y, k, hy, hk, rfl⟩

theorem waitFound_ok {addr : ℕ} {pid : Option ℕ} (h : waitFound R p q addr s = .ok (pid, s')) :
    ∃ ok s1, copyStatus R p q addr s = .ok (ok, s1) ∧
      (ok = false ∧ pid = none ∧ s' = s1 ∨
        ok = true ∧ pid = some (s1.mem.proc q).pid ∧ freeproc R q s1 = .ok s') := by
  obtain ⟨⟨ok, s1⟩, hcopy, h⟩ := bind_eq_ok h
  refine ⟨ok, s1, hcopy, ?_⟩
  cases ok with
  | false =>
    cases h
    exact Or.inl ⟨rfl, rfl, rfl⟩
  | true =>
    obtain ⟨s2, hfree, h⟩ := bind_eq_ok h
    cases h
    exact Or.inr ⟨rfl, rfl, hfree⟩

theorem findUnused_some (h : findUnused s.mem = some q) : (s.mem.proc q).state = .unused := by
  have := List.find?_some h
  simpa using this

theorem findZombie_some (h : findZombie s.mem p = some q) :
    (s.mem.proc q).parent = some p ∧ (s.mem.proc q).state = .zombie := by
  have := List.find?_some h
  simpa using this

/-! ## Processes and their memory -/

inductive Kind where
  | unused | fresh | live
  deriving DecidableEq

def kind : Vm.Slot → Kind
  | .unused => .unused
  | .fresh _ => .fresh
  | .live _ => .live

/-- Between calls, exactly the slots that are not `UNUSED` have memory. -/
def Matches (st : ProcState) (x : Vm.Slot) : Prop :=
  st = .unused ∧ kind x = .unused ∨ st ≠ .unused ∧ st ≠ .used ∧ kind x = .live

theorem running_kind {x : Vm.Proc} (h : s.vm.running p = some x) : kind (s.vm.slot p) = .live := by
  rw [(Vm.running_eq_some.mp h).1]
  rfl

variable {vm vm' : Vm.State Slot}

theorem kind_setSlot_live {x y : Vm.Proc} {k : Vm.Kmem} (h : vm.running p = some x) (q : Slot) :
    kind ((vm.setSlot p (.live y) k).slot q) = kind (vm.slot q) := by
  by_cases hq : q = p
  · subst hq
    simp [Vm.State.setSlot, kind, (Vm.running_eq_some.mp h).1]
  · simp [Vm.State.setSlot, hq]

def viewKind : Vm.SlotView → Kind
  | .unused => .unused
  | .fresh => .fresh
  | .live _ => .live

theorem viewKind_view (x : Vm.Slot) (k : Vm.Kmem) : viewKind (x.view k) = kind x := by
  cases x <;> rfl

theorem viewKind_onProc (V : Slot → Vm.SlotView) (i : Slot) (f : Vm.ProcView → Vm.ProcView) :
    viewKind (Vm.onProc V i f q) = viewKind (V q) := by
  cases hp : V i with
  | unused => simp [Vm.onProc, hp]
  | fresh => simp [Vm.onProc, hp]
  | live p =>
    by_cases hq : q = i
    · subst hq
      simp [Vm.onProc, viewKind, hp]
    · simp [Vm.onProc, hp, hq]

theorem viewKind_spaceStep {e : Vm.Event Slot} (he : Plain e = true) (mark : Vm.Space → Vm.Space)
    (ok : Bool) (V : Slot → Vm.SlotView) :
    viewKind (Vm.spaceStep mark ok V e q) = viewKind (V q) := by
  cases e with
  | allocproc => cases he
  | fork => cases he
  | freeproc => cases he
  | kalloc => rfl
  | kfree => rfl
  | _ => exact viewKind_onProc _ _ _

theorem kind_of_plain {e : Vm.Event Slot} (hvm : (Vm.sys R Slot).Reachable vm) (he : Plain e = true)
    (h : Vm.step R vm e = .ok vm') (q : Slot) : kind (vm'.slot q) = kind (vm.slot q) := by
  obtain ⟨n, ok, hview, -⟩ := ((Vm.step_ensures (Vm.reachable_inv hvm) e).of_ok h).view
  have := congrFun hview q
  rw [← viewKind_view (vm'.slot q) vm'.kmem, ← viewKind_view (vm.slot q) vm.kmem]
  show viewKind (vm'.view q) = viewKind (vm.view q)
  rw [this, viewKind_spaceStep he]

/-! ## `fork` -/

theorem vm_allocproc_slot (h : Vm.allocproc R q vm = .ok vm') :
    vm'.slot = vm.slot ∨ ∃ y, vm'.slot = update vm.slot q (.fresh y) := by
  unfold Vm.allocproc at h
  split at h
  · cases h
    exact Or.inl rfl
  · obtain ⟨⟨pt, k⟩, -, h⟩ := bind_eq_ok h
    dsimp only at h
    split at h
    · obtain ⟨k', -, h⟩ := bind_eq_ok h
      cases h
      exact Or.inl rfl
    · cases h
      exact Or.inr ⟨_, rfl⟩

theorem vm_forkCopy_slot {x y : Vm.Proc} (h : Vm.forkCopy R p q x y vm = .ok vm') : ∃ pt z,
      vm'.slot = update (update vm.slot p (.live { x with pt := pt })) q z ∧
      (z = .unused ∨ ∃ w, z = .live w) := by
  obtain ⟨⟨ok, k, old, new⟩, -, h⟩ := bind_eq_ok h
  cases ok with
  | true =>
    cases h
    exact ⟨old, _, rfl, Or.inr ⟨_, rfl⟩⟩
  | false =>
    obtain ⟨k', -, h⟩ := bind_eq_ok h
    cases h
    exact ⟨old, _, rfl, Or.inl rfl⟩

/-- The process table and the memory when `allocproc` returns the slot `q`. -/
def allocated (q : Slot) (vm : Vm.State Slot) (s : State) : State :=
  allocEnd q { allocBegin q s with vm := vm }

inductive Forked (R : Vm.Ram) (p : Slot) (s : State) : Option ℕ → State → Prop
  | full (hfull : findUnused s.mem = none) : Forked R p s none s
  | noMemory (q : Slot) (vm : Vm.State Slot) (hq : findUnused s.mem = some q)
      (halloc : Vm.allocproc R q s.vm = .ok vm) (hslot : vm.slot = s.vm.slot) :
      Forked R p s none (freeFields q { allocBegin q s with vm := vm })
  | noCopy (q : Slot) (x y : Vm.Proc) (vm vm' : Vm.State Slot) (hq : findUnused s.mem = some q)
      (hx : s.vm.running p = some x) (halloc : Vm.allocproc R q s.vm = .ok vm)
      (hslot : vm.slot = update s.vm.slot q (.fresh y))
      (hcopy : Vm.forkCopy R p q x y vm = .ok vm') (hslot' : vm'.slot q = .unused) :
      Forked R p s none (freeFields q { allocated q vm s with vm := vm' })
  | child (q : Slot) (x y z : Vm.Proc) (vm vm' : Vm.State Slot) (hq : findUnused s.mem = some q)
      (hx : s.vm.running p = some x) (halloc : Vm.allocproc R q s.vm = .ok vm)
      (hslot : vm.slot = update s.vm.slot q (.fresh y))
      (hcopy : Vm.forkCopy R p q x y vm = .ok vm') (hslot' : vm'.slot q = .live z) :
      Forked R p s (some ((allocated q vm s).mem.proc q).pid)
        (forkEnd p q { allocated q vm s with vm := vm' })

theorem fork_forked {r : Option ℕ} (hm : ∀ q, Matches (s.mem.proc q).state (s.vm.slot q))
    (h : fork R p s = .ok (r, s')) : Forked R p s r s' := by
  unfold fork at h
  split at h
  · cases h
  next x hx =>
  obtain ⟨⟨np, s1⟩, halloc, h⟩ := bind_eq_ok h
  unfold allocproc at halloc
  split at halloc
  · next hfull =>
    cases halloc
    cases h
    exact .full hfull
  next q hq =>
  obtain ⟨vm, hvm, halloc⟩ := bind_eq_ok halloc
  have hunused : s.vm.slot q = .unused := by
    rcases hm q with ⟨-, hk⟩ | ⟨hne, -⟩
    · cases hs : s.vm.slot q with
      | unused => rfl
      | fresh y => simp [hs, kind] at hk
      | live y => simp [hs, kind] at hk
    · exact absurd (findUnused_some hq) hne
  rcases vm_allocproc_slot hvm with hslot | ⟨y, hslot⟩
  · rw [hslot, show (allocBegin q s).vm.slot q = .unused from hunused] at halloc
    cases halloc
    cases h
    exact .noMemory q vm hq hvm hslot
  · rw [hslot, update_self] at halloc
    cases halloc
    dsimp only at h
    rw [show (allocEnd q { allocBegin q s with vm := vm }).vm.slot q = .fresh y by
      show vm.slot q = _
      rw [hslot, update_self]] at h
    obtain ⟨vm', hcopy, h⟩ := bind_eq_ok h
    obtain ⟨pt, z, hslot', hz⟩ := vm_forkCopy_slot hcopy
    have hqz : vm'.slot q = z := by rw [hslot', update_self]
    rcases hz with rfl | ⟨w, rfl⟩
    · rw [hqz] at h
      cases h
      exact .noCopy q x y vm vm' hq hx hvm hslot hcopy hqz
    · rw [hqz] at h
      cases h
      exact .child q x y w vm vm' hq hx hvm hslot hcopy hqz

end
end Xv6.Task
