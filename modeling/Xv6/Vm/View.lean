import Xv6.Vm.System
import Xv6.Vm.Space

/-! # The memory of all processes without physical pages

What the memory system is for: each process has an address space of its own, and an operation
changes those of the processes it is about. `mark` says what `fork` does to the entries of the
parent and of the child: nothing if the child gets its own copy of every page at once, and
`shareTo n` in this kernel. `ok` tells whether there was enough memory.
-/

namespace Xv6.Vm
set_option autoImplicit false

structure ImageView where
  space : Space
  sz : ℕ
  stack : Bool

structure ProcView where
  space : Space
  sz : ℕ
  image : Option ImageView

inductive SlotView where
  | unused
  | fresh
  | live (p : ProcView)

def SlotView.space : SlotView → Space
  | .live p => p.space
  | _ => .empty

def ProcView.growproc (ok : Bool) (n : ℤ) (p : ProcView) : ProcView :=
  let newsz := addSize p.sz n
  if n > 0 then
    if ok && decide (p.sz ≤ newsz) then
      { p with
        space := p.space.grow (pgroundup p.sz) (pgroundup newsz - pgroundup p.sz)
          (userPerm ⟨true, false⟩)
        sz := newsz }
    else p
  else if n < 0 then
    let sz := min p.sz newsz
    { p with space := p.space.truncate (pgroundup sz), sz := sz }
  else p

def ImageView.segment (ok : Bool) (newsz : ℕ) (xperm : Xperm) (im : ImageView) :
    Option ImageView :=
  if newsz < im.sz then some im
  else if ok && decide (newsz ≠ 0) then
    some { im with
      space := im.space.grow (pgroundup im.sz) (pgroundup newsz - pgroundup im.sz) (userPerm xperm)
      sz := newsz }
  else none

def clearUser (f : Flags) : Flags := { f with u := false }

def ImageView.addStack (ok : Bool) (im : ImageView) : Option ImageView :=
  let n := pgroundup im.sz
  if ok then
    some ⟨(im.space.grow n 2 (userPerm ⟨true, false⟩)).setFlags n clearUser, (n + 2) * PGSIZE, true⟩
  else none

def ImageView.arg (sp : ℕ) (src : List UInt8) (im : ImageView) : Option ImageView :=
  if sp < im.sz - PGSIZE then none
  else
    match im.space.copyout sp src with
    | (true, m) => some { im with space := m }
    | (false, _) => none

section
variable {I : Type} [DecidableEq I]

def onProc (V : I → SlotView) (i : I) (f : ProcView → ProcView) : I → SlotView :=
  match V i with
  | .live p => Function.update V i (.live (f p))
  | _ => V

def onImage (V : I → SlotView) (i : I) (f : ImageView → Option ImageView) : I → SlotView :=
  onProc V i fun p => { p with image := p.image.bind f }

/-- One operation on the address spaces. -/
def spaceStep (mark : Space → Space) (ok : Bool) (V : I → SlotView) : Event I → I → SlotView
  | .kalloc | .kfree _ => V
  | .allocproc i => if ok then Function.update V i .fresh else V
  | .fork i j =>
    match V i with
    | .live p =>
      Function.update (onProc V i fun p => { p with space := mark p.space }) j
        (if ok then .live { p with space := mark p.space } else .unused)
    | _ => V
  | .growproc i n => onProc V i (·.growproc ok n)
  | .store i va b => onProc V i fun p => { p with space := p.space.store va b }
  | .copyout i dstva src => onProc V i fun p => { p with space := (p.space.copyout dstva src).2 }
  | .freeproc i => Function.update V i .unused
  | .execBegin i =>
    onProc V i fun p => { p with image := if ok then some ⟨.empty, 0, false⟩ else none }
  | .execSegment i newsz xperm => onImage V i (·.segment ok newsz xperm)
  | .execLoad i v src => onImage V i fun im => some { im with space := im.space.write v 0 src }
  | .execStack i => onImage V i (·.addStack ok)
  | .execArg i sp src => onImage V i (·.arg sp src)
  | .execSwitch i =>
    onProc V i fun p =>
      match p.image with
      | none => p
      | some im => ⟨im.space, im.sz, none⟩
  | .execAbort i => onImage V i fun _ => none

end

/-! ## The view of a state -/

def Image.view (im : Image) (k : Kmem) : ImageView := ⟨im.pt.space k, im.sz, im.stack⟩

def Proc.view (p : Proc) (k : Kmem) : ProcView :=
  ⟨p.pt.space k, p.sz, p.image.map fun im => im.view k⟩

def Slot.view (x : Slot) (k : Kmem) : SlotView :=
  match x with
  | .unused => .unused
  | .fresh _ => .fresh
  | .live p => .live (p.view k)

/-- The address spaces of the processes in state `s`. -/
def State.view {I : Type} (s : State I) : I → SlotView := fun i => (s.slot i).view s.kmem

end Xv6.Vm
