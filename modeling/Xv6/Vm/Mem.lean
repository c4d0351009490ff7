import Xv6.Param
import Xv6.Lib.Outcome

/-! # Physical memory and page tables

Physical addresses are page numbers. The three-level Sv39 tree of a user page table is kept by the
prefix of the virtual page number that leads to each table page: `level0 (v / 512)` is the page of
the level-0 table for page `v`, `level1 (v / 512 / 512)` that of its level-1 table, and `pte v` its
leaf entry.
-/

namespace Xv6.Vm
set_option autoImplicit false
open Function (update update_self update_of_ne)

def PGSIZE : ℕ := 4096

def pgroundup (sz : ℕ) : ℕ := (sz + (PGSIZE - 1)) / PGSIZE

def NPTE : ℕ := 512

def MAXVPN : ℕ := 2 ^ 26
def TRAMPOLINE : ℕ := MAXVPN - 1
def TRAPFRAME : ℕ := MAXVPN - 2

-- The sizes are large numbers, which proofs must not count up to.
attribute [irreducible] PGSIZE NPTE MAXVPN TRAMPOLINE TRAPFRAME

abbrev Ppn := ℕ

/-- The page number of the end of the memory, `(KERNBASE + 128*1024*1024) / PGSIZE`. -/
def PHYSTOP : Ppn := 0x88000

abbrev Page := ByteBlock PGSIZE

/-- The page after `memmove(pg + off, src, n)`. -/
def Page.overwrite (pg : Page) (off : ℕ) (src : List UInt8) : Page := fun i =>
  if h : off ≤ i.val ∧ i.val - off < src.length then src.get ⟨i.val - off, h.2⟩ else pg i

def Page.byteAt (pg : Page) (va : ℕ) : UInt8 :=
  pg ⟨va % PGSIZE, Nat.mod_lt va (by simp [PGSIZE])⟩

def Page.bytes (pg : Page) (off n : ℕ) : List UInt8 := ((List.ofFn pg).drop off).take n

/-- The physical pages: the allocator has those from the end of the kernel to `PHYSTOP`, and the
trampoline lies in the kernel text. -/
structure Ram where
  first : Ppn
  stop : Ppn
  trampoline : Ppn
  trampoline_lt : trampoline < first

def Ram.Allocatable (R : Ram) (pg : Ppn) : Prop := R.first ≤ pg ∧ pg < R.stop

theorem Ram.Allocatable.ne_zero {R : Ram} {pg : Ppn} (h : R.Allocatable pg) : pg ≠ 0 :=
  Nat.ne_of_gt (lt_of_le_of_lt (Nat.zero_le _) (lt_of_lt_of_le R.trampoline_lt h.1))

instance (R : Ram) (pg : Ppn) : Decidable (R.Allocatable pg) :=
  inferInstanceAs (Decidable (_ ∧ _))

/-- The bits of a page table entry that the kernel uses. -/
structure Flags where
  v : Bool
  r : Bool
  w : Bool
  x : Bool
  u : Bool
  cow : Bool
  deriving DecidableEq

def Flags.none : Flags := ⟨false, false, false, false, false, false⟩

structure Pte where
  ppn : Ppn
  flags : Flags
  deriving DecidableEq

def Pte.zero : Pte := ⟨0, .none⟩

structure PageTable where
  root : Ppn
  level1 : ℕ → Option Ppn
  level0 : ℕ → Option Ppn
  pte : ℕ → Pte

def PageTable.setPte (pt : PageTable) (v : ℕ) (e : Pte) : PageTable :=
  { pt with pte := update pt.pte v e }

theorem PageTable.setPte_pte_self (pt : PageTable) (v : ℕ) (e : Pte) : (pt.setPte v e).pte v = e :=
  update_self _ _ _

theorem PageTable.setPte_pte_of_ne (pt : PageTable) {v w : ℕ} (e : Pte) (h : w ≠ v) :
    (pt.setPte v e).pte w = pt.pte w :=
  update_of_ne h _ _

def PageTable.reaches (pt : PageTable) (v : ℕ) : Bool :=
  (pt.level1 (v / NPTE / NPTE)).isSome && (pt.level0 (v / NPTE)).isSome

/-- `refCount`, `kmem.freelist` and the contents of the pages. `oom` records whether `kalloc` has
ever found the free list empty. -/
structure Kmem where
  refCount : Ppn → ℤ
  freelist : List Ppn
  data : Ppn → Page
  oom : Bool

namespace Kmem

def memset (k : Kmem) (pg : Ppn) (c : UInt8) : Kmem :=
  { k with data := update k.data pg (ByteBlock.fill PGSIZE c) }

def copyPage (k : Kmem) (dst src : Ppn) : Kmem :=
  { k with data := update k.data dst (k.data src) }

def write (k : Kmem) (pg : Ppn) (off : ℕ) (src : List UInt8) : Kmem :=
  { k with data := update k.data pg (Page.overwrite (k.data pg) off src) }

def refInc (k : Kmem) (pg : Ppn) : Kmem :=
  { k with refCount := update k.refCount pg (k.refCount pg + 1) }

def kalloc (k : Kmem) : Option Ppn × Kmem :=
  match k.freelist with
  | [] => (none, { k with oom := true })
  | r :: next =>
    let k := { k with freelist := next }
    (some r, (k.memset r 5).refInc r)

def kfree (R : Ram) (pg : Ppn) (k : Kmem) : Outcome Failure Kmem :=
  if ¬ R.Allocatable pg then .fail (.panic "kfree")
  else
    let k := { k with refCount := update k.refCount pg (k.refCount pg - 1) }
    if k.refCount pg = 0 then
      let k := k.memset pg 1
      pure { k with freelist := pg :: k.freelist }
    else pure k

/-- One iteration of `freerange`. -/
def freeOne (R : Ram) (k : Kmem) (pg : Ppn) : Outcome Failure Kmem :=
  kfree R pg { k with refCount := update k.refCount pg 1 }

/-- `freerange` over the pages of the allocator, before which nothing is on the free list. -/
def kinit (R : Ram) (data : Ppn → Page) : Outcome Failure Kmem :=
  (List.range' R.first (R.stop - R.first)).foldlM (freeOne R)
    { refCount := fun _ => 0, freelist := [], data := data, oom := false }

end Kmem
end Xv6.Vm
