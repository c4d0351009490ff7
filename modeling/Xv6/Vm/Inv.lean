import Xv6.Vm.Cow
import Xv6.Vm.Create
import Xv6.Vm.Fork

/-! # The invariant of the memory system

The counts are exact for the shares of all processes and of the kernel, and every page table maps
the pages below its size.
-/

namespace Xv6.Vm
set_option autoImplicit false
open Kmem RefPool

/-! ## Shares -/

def imageShares : Option Image → Multiset (Share Ppn)
  | none => 0
  | some im => im.pt.shares

def Proc.shares (p : Proc) : Multiset (Share Ppn) :=
  .sole p.trapframe ::ₘ (p.pt.shares + imageShares p.image)

def Slot.shares : Slot → Multiset (Share Ppn)
  | .unused => 0
  | .fresh p | .live p => p.shares

def kernelShares (l : List Ppn) : Multiset (Share Ppn) := (l : Multiset Ppn).map Share.sole

def Space.NoCow (m : Space) : Prop := ∀ v p, m v = some p → p.flags.cow = false

def SlotOk (k : Kmem) : Slot → Prop
  | .unused => True
  | .fresh p => PtOk p.pt 0 ∧ p.sz = 0 ∧ p.image = none
  | .live p => PtOk p.pt (pgroundup p.sz) ∧ ∀ im, p.image = some im →
      PtOk im.pt (pgroundup im.sz) ∧ (im.pt.space k).NoCow

section
variable {I : Type} [Fintype I] [DecidableEq I]

/-- The shares of the slots outside `T` and of the kernel. -/
def State.rest (s : State I) (T : Finset I) : Multiset (Share Ppn) :=
  ∑ j ∈ Tᶜ, (s.slot j).shares + kernelShares s.kernel

def State.shares (s : State I) : Multiset (Share Ppn) :=
  ∑ j, (s.slot j).shares + kernelShares s.kernel

structure Inv (R : Ram) (s : State I) : Prop where
  exact : KOk R s.kmem s.shares
  slots : ∀ i, SlotOk s.kmem (s.slot i)

theorem shares_eq_rest (s : State I) (T : Finset I) :
    s.shares = ∑ j ∈ T, (s.slot j).shares + s.rest T := by
  rw [State.shares, State.rest, ← add_assoc, Finset.sum_add_sum_compl]

theorem shares_le_rest (s : State I) {T : Finset I} {j : I} (hj : j ∉ T) :
    (s.slot j).shares ≤ s.rest T := by
  have hmem : j ∈ Tᶜ := Finset.mem_compl.mpr hj
  rw [State.rest, ← Finset.add_sum_erase _ _ hmem, add_assoc]
  exact Multiset.le_add_right _ _

/-! ## Frames -/

variable {M : Multiset (Share Ppn)} {k k' : Kmem} {x : Slot} {R : Ram} {s : State I}

theorem space_keeps {pt : PageTable} (h : Keeps M k k') (hle : pt.shares ≤ M) :
    pt.space k' = pt.space k :=
  space_congr (fun _ _ => rfl) fun v hv hvalid =>
    Keeps.entry (M := 0) (h.mono (by simpa using hle)) hv hvalid

theorem image_view_keeps {image : Option Image} (h : Keeps M k k') (hle : imageShares image ≤ M) :
    (image.map fun im => im.view k') = image.map fun im => im.view k := by
  cases image with
  | none => rfl
  | some im => simp only [Option.map_some, Image.view, space_keeps h hle]

theorem Proc.view_keeps {p : Proc} (h : Keeps M k k') (hle : p.shares ≤ M) :
    p.view k' = p.view k := by
  have hpt : p.pt.shares ≤ M :=
    ((Multiset.le_add_right _ _).trans (Multiset.le_cons_self _ _)).trans hle
  have him : imageShares p.image ≤ M :=
    ((Multiset.le_add_left _ _).trans (Multiset.le_cons_self _ _)).trans hle
  simp only [Proc.view, space_keeps h hpt, image_view_keeps h him]

theorem Slot.view_keeps (h : Keeps M k k') (hle : x.shares ≤ M) : x.view k' = x.view k := by
  cases x with
  | unused => rfl
  | fresh p => rfl
  | live p => simp only [Slot.view, Proc.view_keeps h hle]

theorem SlotOk.keeps (hok : SlotOk k x) (h : Keeps M k k') (hle : x.shares ≤ M) : SlotOk k' x := by
  cases x with
  | unused => trivial
  | fresh p => exact hok
  | live p =>
    refine ⟨hok.1, fun im him => ⟨(hok.2 im him).1, ?_⟩⟩
    have hsh : im.pt.shares ≤ p.shares := by
      have : imageShares p.image = im.pt.shares := by rw [him]; rfl
      rw [← this]
      exact (Multiset.le_add_left _ _).trans (Multiset.le_cons_self _ _)
    rw [space_keeps h (hsh.trans hle)]
    exact (hok.2 im him).2

theorem Inv.change (h : Inv R s) (s' : State I) (T : Finset I) (hkernel : s'.kernel = s.kernel)
    (hslot : ∀ j, j ∉ T → s'.slot j = s.slot j)
    (hE : KOk R s'.kmem (∑ j ∈ T, (s'.slot j).shares + s.rest T))
    (hkeeps : Keeps (s.rest T) s.kmem s'.kmem) (hok : ∀ j ∈ T, SlotOk s'.kmem (s'.slot j)) :
    Inv R s' ∧ ∀ j, j ∉ T → s'.view j = s.view j := by
  have hrest : s'.rest T = s.rest T := by
    rw [State.rest, State.rest, hkernel]
    congr 1
    exact Finset.sum_congr rfl fun j hj => by rw [hslot j (Finset.mem_compl.mp hj)]
  refine ⟨⟨?_, fun j => ?_⟩, fun j hj => ?_⟩
  · rw [shares_eq_rest s' T, hrest]
    exact hE
  · by_cases hj : j ∈ T
    · exact hok j hj
    · rw [hslot j hj]
      exact (h.slots j).keeps hkeeps (shares_le_rest s hj)
  · rw [State.view, State.view, hslot j hj]
    exact Slot.view_keeps hkeeps (shares_le_rest s hj)

theorem Inv.exact_at (h : Inv R s) (i : I) : KOk R s.kmem ((s.slot i).shares + s.rest {i}) := by
  have hE := h.exact
  rwa [shares_eq_rest s {i}, Finset.sum_singleton] at hE

theorem Inv.setSlot (h : Inv R s) {i : I} (hE : KOk R k (x.shares + s.rest {i}))
    (hkeeps : Keeps (s.rest {i}) s.kmem k) (hok : SlotOk k x) :
    Inv R (s.setSlot i x k) ∧ (s.setSlot i x k).view = Function.update s.view i (x.view k) := by
  have hself : (s.setSlot i x k).slot i = x := by simp [State.setSlot]
  have hslot : ∀ j, j ∉ ({i} : Finset I) → (s.setSlot i x k).slot j = s.slot j := by
    intro j hj
    have hne : j ≠ i := by simpa using hj
    simp [State.setSlot, hne]
  have hsum : KOk R k (∑ j ∈ {i}, ((s.setSlot i x k).slot j).shares + s.rest {i}) := by
    rw [Finset.sum_singleton, hself]
    exact hE
  have hok' : ∀ j ∈ ({i} : Finset I), SlotOk k ((s.setSlot i x k).slot j) := by
    intro j hj
    obtain rfl := Finset.mem_singleton.mp hj
    rw [hself]
    exact hok
  obtain ⟨hinv, hview⟩ := h.change (s.setSlot i x k) {i} rfl hslot hsum hkeeps hok'
  refine ⟨hinv, ?_⟩
  funext j
  by_cases hj : j = i
  · subst hj
    rw [Function.update_self, State.view, hself]
    rfl
  · rw [Function.update_of_ne hj]
    exact hview j (by simpa using hj)

end
end Xv6.Vm
