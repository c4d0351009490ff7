import Xv6.Lib.TransSys
import Xv6.Vm.User

/-! # The memory system

The processes with their page tables, the pages the kernel keeps for itself, and the operations
that allocate, share and release pages: `allocproc`, `fork`, `growproc`, stores, `copyout`, the
stages of `exec`, and `freeproc`. A page table that `exec` is building is part of the state until
`exec` commits to it or gives it up.
-/

namespace Xv6.Vm
set_option autoImplicit false
open Kmem

structure Image where
  pt : PageTable
  sz : ℕ
  stack : Bool

structure Proc where
  trapframe : Ppn
  pt : PageTable
  sz : ℕ
  image : Option Image

/-- A slot of the process table: unused, allocated and still without memory, or in use. -/
inductive Slot where
  | unused
  | fresh (p : Proc)
  | live (p : Proc)

/-- The state; `I` indexes the process table and `kernel` are the pages that the kernel has
allocated for itself: kernel stacks, pipes, arguments of `exec`. -/
structure State (I : Type) where
  kmem : Kmem
  slot : I → Slot
  kernel : List Ppn

section
variable {I : Type} [DecidableEq I]

def State.setSlot (s : State I) (i : I) (x : Slot) (k : Kmem) : State I :=
  { s with kmem := k, slot := Function.update s.slot i x }

def freeproc (R : Ram) (p : Proc) (k : Kmem) : Outcome Failure Kmem := do
  let k ← kfree R p.trapframe k
  procFreepagetable R p.pt p.sz k

def allocproc (R : Ram) (i : I) (s : State I) : Outcome Failure (State I) :=
  match kalloc s.kmem with
  | (none, k) => pure { s with kmem := k }
  | (some trapframe, k) => do
    let (pt, k) ← procPagetable R trapframe k
    match pt with
    | none => do
      let k ← kfree R trapframe k
      pure { s with kmem := k }
    | some pt => pure (s.setSlot i (.fresh ⟨trapframe, pt, 0, none⟩) k)

/-- `fork`, once `allocproc` has returned the slot `j` for the child of `i`. -/
def forkCopy (R : Ram) (i j : I) (p np : Proc) (s : State I) : Outcome Failure (State I) := do
  let (ok, k, old, new) ← uvmcopy R p.sz s.kmem p.pt np.pt
  let s := s.setSlot i (.live { p with pt := old }) k
  if ok then pure (s.setSlot j (.live { np with pt := new, sz := p.sz }) k)
  else do
    let k ← freeproc R { np with pt := new } k
    pure (s.setSlot j .unused k)

/-- `sz + n` in 64 bits. -/
def addSize (sz : ℕ) (n : ℤ) : ℕ := ((sz + n) % 2 ^ 64).toNat

def growproc (R : Ram) (i : I) (p : Proc) (n : ℤ) (s : State I) : Outcome Failure (State I) :=
  if n > 0 then do
    let (sz, k, pt) ← uvmalloc R p.sz (addSize p.sz n) ⟨true, false⟩ s.kmem p.pt
    pure (s.setSlot i (.live { p with pt := pt, sz := if sz = 0 then p.sz else sz }) k)
  else if n < 0 then do
    let (sz, k, pt) ← uvmdealloc R p.sz (addSize p.sz n) s.kmem p.pt
    pure (s.setSlot i (.live { p with pt := pt, sz := sz }) k)
  else pure s

/-! ## The stages of `exec` -/

def execBad (R : Ram) (i : I) (p : Proc) (pt : PageTable) (sz : ℕ) (k : Kmem) (s : State I) :
    Outcome Failure (State I) := do
  let k ← procFreepagetable R pt sz k
  pure (s.setSlot i (.live { p with image := none }) k)

def execBegin (R : Ram) (i : I) (p : Proc) (s : State I) : Outcome Failure (State I) := do
  let (pt, k) ← procPagetable R p.trapframe s.kmem
  match pt with
  | none => pure { s with kmem := k }
  | some pt => pure (s.setSlot i (.live { p with image := some ⟨pt, 0, false⟩ }) k)

/-- The `uvmalloc` of a segment that ends at `newsz`. -/
def execSegment (R : Ram) (i : I) (p : Proc) (im : Image) (newsz : ℕ) (xperm : Xperm)
    (s : State I) : Outcome Failure (State I) := do
  let (sz, k, pt) ← uvmalloc R im.sz newsz xperm s.kmem im.pt
  if sz = 0 then execBad R i p pt im.sz k s
  else pure (s.setSlot i (.live { p with image := some { im with pt := pt, sz := sz } }) k)

/-- One page of `loadseg`: the bytes `src` of the file go to page `v`. -/
def execLoad (v : ℕ) (im : Image) (src : List UInt8) (s : State I) : Outcome Failure (State I) :=
  match walkaddr im.pt v with
  | none => .fail (.panic "loadseg: address should exist")
  | some pa => pure { s with kmem := s.kmem.write pa 0 src }

def execStack (R : Ram) (i : I) (p : Proc) (im : Image) (s : State I) :
    Outcome Failure (State I) := do
  let sz := pgroundup im.sz * PGSIZE
  let (sz1, k, pt) ← uvmalloc R sz (sz + 2 * PGSIZE) ⟨true, false⟩ s.kmem im.pt
  if sz1 = 0 then execBad R i p pt sz k s
  else do
    let pt ← uvmclear (sz1 / PGSIZE - 2) k pt
    pure (s.setSlot i (.live { p with image := some ⟨pt, sz1, true⟩ }) k)

def execArg (R : Ram) (i : I) (p : Proc) (im : Image) (sp : ℕ) (src : List UInt8) (s : State I) :
    Outcome Failure (State I) :=
  if sp < im.sz - PGSIZE then execBad R i p im.pt im.sz s.kmem s
  else do
    let (ok, k, pt) ← copyout R sp src s.kmem im.pt
    if ok then pure (s.setSlot i (.live { p with image := some { im with pt := pt } }) k)
    else execBad R i p pt im.sz k s

def execSwitch (R : Ram) (i : I) (p : Proc) (im : Image) (s : State I) :
    Outcome Failure (State I) := do
  let k ← procFreepagetable R p.pt p.sz s.kmem
  pure (s.setSlot i (.live { p with pt := im.pt, sz := im.sz, image := none }) k)

/-! ## The system -/

inductive Event (I : Type) where
  /-- The kernel allocates and frees a page for itself. -/
  | kalloc
  | kfree (pg : Ppn)
  | allocproc (i : I)
  | fork (i j : I)
  | growproc (i : I) (n : ℤ)
  | store (i : I) (va : ℕ) (b : UInt8)
  | copyout (i : I) (dstva : ℕ) (src : List UInt8)
  | freeproc (i : I)
  | execBegin (i : I)
  | execSegment (i : I) (newsz : ℕ) (xperm : Xperm)
  | execLoad (i : I) (v : ℕ) (src : List UInt8)
  | execStack (i : I)
  | execArg (i : I) (sp : ℕ) (src : List UInt8)
  | execSwitch (i : I)
  | execAbort (i : I)

def State.running (s : State I) (i : I) : Option Proc :=
  match s.slot i with
  | .live p => if p.image.isNone then some p else none
  | _ => none

def State.execing (s : State I) (i : I) : Option (Proc × Image) :=
  match s.slot i with
  | .live p => p.image.map fun im => (p, im)
  | _ => none

def withProc (s : State I) (i : I) (f : Proc → Outcome Failure (State I)) :
    Outcome Failure (State I) :=
  match s.running i with
  | none => .blocked
  | some p => f p

def withImage (s : State I) (i : I) (f : Proc → Image → Outcome Failure (State I)) :
    Outcome Failure (State I) :=
  match s.execing i with
  | none => .blocked
  | some (p, im) => f p im

def step (R : Ram) (s : State I) : Event I → Outcome Failure (State I)
  | .kalloc =>
    match kalloc s.kmem with
    | (none, k) => pure { s with kmem := k }
    | (some pg, k) => pure { s with kmem := k, kernel := pg :: s.kernel }
  | .kfree pg =>
    if pg ∈ s.kernel then do
      let k ← kfree R pg s.kmem
      pure { s with kmem := k, kernel := s.kernel.erase pg }
    else .blocked
  | .allocproc i =>
    match s.slot i with
    | .unused => allocproc R i s
    | _ => .blocked
  | .fork i j =>
    withProc s i fun p =>
      match s.slot j with
      | .fresh np => forkCopy R i j p np s
      | _ => .blocked
  | .growproc i n => withProc s i fun p => growproc R i p n s
  | .store i va b =>
    withProc s i fun p => do
      let (_, k, pt) ← userStore R va b s.kmem p.pt
      pure (s.setSlot i (.live { p with pt := pt }) k)
  | .copyout i dstva src =>
    withProc s i fun p => do
      let (_, k, pt) ← copyout R dstva src s.kmem p.pt
      pure (s.setSlot i (.live { p with pt := pt }) k)
  | .freeproc i =>
    withProc s i fun p => do
      let k ← freeproc R p s.kmem
      pure (s.setSlot i .unused k)
  | .execBegin i => withProc s i fun p => execBegin R i p s
  | .execSegment i newsz xperm =>
    withImage s i fun p im =>
      if im.stack then .blocked else execSegment R i p im newsz xperm s
  | .execLoad i v src =>
    withImage s i fun _ im => if im.stack then .blocked else execLoad v im src s
  | .execStack i =>
    withImage s i fun p im => if im.stack then .blocked else execStack R i p im s
  | .execArg i sp src =>
    withImage s i fun p im => if im.stack then execArg R i p im sp src s else .blocked
  | .execSwitch i =>
    withImage s i fun p im => if im.stack then execSwitch R i p im s else .blocked
  | .execAbort i => withImage s i fun p im => execBad R i p im.pt im.sz s.kmem s

def userinit (R : Ram) (i : I) (initcode : List UInt8) (s : State I) :
    Outcome Failure (State I) := do
  let s ← allocproc R i s
  match s.slot i with
  | .fresh p => do
    let (k, pt) ← uvmfirst initcode s.kmem p.pt
    pure (s.setSlot i (.live { p with pt := pt, sz := PGSIZE }) k)
  | _ => .fail .fault

def kernelPages (R : Ram) : ℕ → State I → Outcome Failure (State I)
  | 0, s => pure s
  | n + 1, s => do
    let s ← step R s .kalloc
    kernelPages R n s

/-- `kinit`, `kvminit` with the `n` pages of the kernel page table and of the kernel stacks, and
`userinit`; `data` are the contents of the pages before. -/
def boot (R : Ram) (data : Ppn → Page) (n : ℕ) (i : I) (initcode : List UInt8) :
    Outcome Failure (State I) := do
  let k ← kinit R data
  let s ← kernelPages R n ⟨k, fun _ => .unused, []⟩
  userinit R i initcode s

/-- The kernel has booted, and memory has not run out. -/
def Booted (R : Ram) (s : State I) : Prop :=
  ∃ data n i initcode, boot R data n i initcode = .ok s ∧ s.kmem.oom = false

def sys (R : Ram) (I : Type) [DecidableEq I] : TransSys (State I) (Event I) where
  init := Booted R
  step := fun s e s' => step R s e = .ok s'

/-- The state after booting on an empty memory with one kernel page and the events `es`. -/
def runFrom (R : Ram) (i : I) (initcode : List UInt8) (es : List (Event I)) : Option (State I) :=
  (boot R (fun _ => ByteBlock.fill PGSIZE 0) 1 i initcode).result.bind fun s =>
    if s.kmem.oom then none else TransSys.exec (fun s e => (step R s e).result) s es

theorem run_of_runFrom {R : Ram} {i : I} {initcode : List UInt8} {es : List (Event I)}
    {t : State I} (h : runFrom R i initcode es = some t) :
    ∃ s, Booted R s ∧ (sys R I).Run s es t := by
  obtain ⟨s, hs, ht⟩ := Option.bind_eq_some_iff.mp h
  have hboot := Outcome.result_eq_some.mp hs
  split at ht
  · cases ht
  · next hoom =>
    refine ⟨s, ⟨_, _, i, initcode, hboot, by simpa using hoom⟩, ?_⟩
    exact TransSys.Run.of_exec (fun _ _ _ h => Outcome.result_eq_some.mp h) ht

def State.check (s : State I) (j : I) (f : Proc → Kmem → Bool) : Bool :=
  match s.slot j with
  | .live p => f p s.kmem
  | _ => false

theorem live_of_runFrom {R : Ram} {i j : I} {initcode : List UInt8} {es : List (Event I)}
    {f : Proc → Kmem → Bool}
    (h : (runFrom R i initcode es).map (fun s => s.check j f) = some true) :
    ∃ s p, (sys R I).Reachable s ∧ s.slot j = .live p ∧ f p s.kmem = true := by
  obtain ⟨s, hs, htest⟩ := Option.map_eq_some_iff.mp h
  obtain ⟨s0, hboot, hruns⟩ := run_of_runFrom hs
  refine ⟨s, ?_⟩
  cases hp : s.slot j with
  | unused => simp [State.check, hp] at htest
  | fresh p => simp [State.check, hp] at htest
  | live p =>
    simp only [State.check, hp] at htest
    exact ⟨p, (TransSys.Reachable.init hboot).run hruns, rfl, htest⟩

end

def smallRam : Ram := ⟨8, 40, 3, by decide⟩

end Xv6.Vm
