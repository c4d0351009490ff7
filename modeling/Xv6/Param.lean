import Xv6.Lib.ByteBlock

/-! # Compile-time constants and shared types

The constants of `kernel/param.h` and `kernel/fs.h` under their own names, disk blocks, and the ways
the kernel can stop.
-/

namespace Xv6
set_option autoImplicit false

def MAXOPBLOCKS : ℕ := 10
def LOGSIZE : ℕ := MAXOPBLOCKS * 3
def BSIZE : ℕ := 1024
def NBUF : ℕ := MAXOPBLOCKS * 3
def NPROC : ℕ := 64
def NOFILE : ℕ := 16
def NFILE : ℕ := 100
def NINODE : ℕ := 50
def NDEV : ℕ := 10
def MAXWAITTIME : ℕ := 64

theorem NPROC_pos : 0 < NPROC := by decide
theorem one_lt_NPROC : 1 < NPROC := by decide
theorem NBUF_pos : 0 < NBUF := by decide
theorem NINODE_pos : 0 < NINODE := by decide
theorem one_lt_NINODE : 1 < NINODE := by decide

abbrev Block := ByteBlock BSIZE

abbrev Proc := Fin NPROC

/-- What stops the kernel: a call of `panic`, or an access outside an array or through null. -/
inductive Failure where
  | panic (msg : String)
  | fault
  deriving DecidableEq

end Xv6
