import Xv6.Lib.CountOf
import Xv6.Vm.Mem

/-! # Open files and descriptors

`ftable` and the `ofile` array of a process, with the functions that allocate, share and drop their
entries. A pointer to a `struct file` is its index, a null pointer in `ofile` is `none`.
-/

namespace Xv6
set_option autoImplicit false
open Function (update)

abbrev FileId := Fin NFILE

abbrev Fd := Fin NOFILE

abbrev InodeId := Fin NINODE

inductive FileType where
  | none
  | pipe
  | inode
  | device
  deriving DecidableEq

structure File where
  type : FileType
  ref : ℤ
  readable : Bool
  writable : Bool
  pipe : Vm.Ppn
  ip : InodeId
  off : ℕ
  major : ℤ

namespace File

/-! ## The file table -/

abbrev Table := FileId → File

def filealloc (t : Table) : Option (FileId × Table) :=
  ((List.finRange NFILE).find? fun f => (t f).ref = 0).map fun f =>
    (f, update t f { t f with ref := 1 })

def filedup (f : FileId) (t : Table) : Outcome Failure Table :=
  if (t f).ref < 1 then .fail (.panic "filedup")
  else .ok (update t f { t f with ref := (t f).ref + 1 })

/-- The part of `fileclose` under `ftable.lock`; `ff` is the copy of a file whose last reference is
gone. -/
def fileclose (f : FileId) (t : Table) : Outcome Failure (Option File × Table) :=
  if (t f).ref < 1 then .fail (.panic "fileclose")
  else if 0 < (t f).ref - 1 then
    .ok (none, update t f { t f with ref := (t f).ref - 1 })
  else
    let ff := { t f with ref := (t f).ref - 1 }
    .ok (some ff, update t f { ff with ref := 0, type := .none })

variable {t : Table} {f : FileId}

theorem filealloc_eq_some {t' : Table} (h : filealloc t = some (f, t')) :
    (t f).ref = 0 ∧ t' = update t f { t f with ref := 1 } := by
  obtain ⟨g, hg, heq⟩ := Option.map_eq_some_iff.mp h
  obtain ⟨rfl, rfl⟩ := Prod.mk.inj heq
  exact ⟨by simpa using List.find?_some hg, rfl⟩

theorem filedup_of_pos (h : 0 < (t f).ref) :
    filedup f t = .ok (update t f { t f with ref := (t f).ref + 1 }) :=
  if_neg (by omega)

theorem fileclose_of_many (h : 1 < (t f).ref) :
    fileclose f t = .ok (none, update t f { t f with ref := (t f).ref - 1 }) := by
  rw [fileclose, if_neg (by omega), if_pos (by omega)]

theorem fileclose_of_one (h : (t f).ref = 1) : fileclose f t = .ok (some { t f with ref := 0 },
      update t f { t f with ref := 0, type := .none }) := by
  rw [fileclose, if_neg (by omega), if_neg (by omega), h]
  rfl

/-! ## Descriptors -/

abbrev Ofile := Fd → Option FileId

def fdalloc (o : Ofile) (f : FileId) : Option (Fd × Ofile) :=
  ((List.finRange NOFILE).find? fun fd => o fd = none).map fun fd =>
    (fd, update o fd (some f))

def argfd (o : Ofile) (fd : ℤ) : Option (Fd × FileId) :=
  if h : 0 ≤ fd ∧ fd < NOFILE then
    let fd : Fd := ⟨fd.toNat, by omega⟩
    (o fd).map fun f => (fd, f)
  else none

theorem fdalloc_eq_some {o o' : Ofile} {fd : Fd} (h : fdalloc o f = some (fd, o')) :
    o fd = none ∧ o' = update o fd (some f) := by
  obtain ⟨g, hg, heq⟩ := Option.map_eq_some_iff.mp h
  obtain ⟨rfl, rfl⟩ := Prod.mk.inj heq
  exact ⟨by simpa using List.find?_some hg, rfl⟩

theorem argfd_eq_some {o : Ofile} {n : ℤ} {fd : Fd} (h : argfd o n = some (fd, f)) :
    o fd = some f := by
  rw [argfd] at h
  split at h
  · obtain ⟨g, hg, heq⟩ := Option.map_eq_some_iff.mp h
    obtain ⟨rfl, rfl⟩ := Prod.mk.inj heq
    exact hg
  · cases h

end File

end Xv6
