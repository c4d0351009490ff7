import Xv6.Lib.Monitor
import Xv6.Lib.RingBuf

/-! # The console input

`consoleintr` and `consoleread` of `kernel/console.c`, called by any processes; an input interrupt
counts as one. The code is a monitor: `cons.lock` is its spinlock and `&cons.r` its channel. What is
echoed to the uart is left out. The shared data also keep, as ghost data, a reference line editor
that is given the same characters, and the history of the reads.
-/

namespace Xv6
set_option autoImplicit false

def INPUT_BUF_SIZE : ℕ := 128

instance : NeZero INPUT_BUF_SIZE := ⟨by decide⟩

structure Cons where
  buf : Fin INPUT_BUF_SIZE → UInt8
  r : BitVec 32
  w : BitVec 32
  e : BitVec 32

namespace Console
open RingBuf (cell)
open Monitor (Act)

def C (x : Char) : UInt8 := UInt8.ofNat (x.toNat - '@'.toNat)

def newline : UInt8 := UInt8.ofNat '\n'.toNat

def carriageReturn : UInt8 := UInt8.ofNat '\r'.toNat

/-! ## The interrupt handler -/

def killLoop : ℕ → Cons → Cons
  | 0, k => k
  | n + 1, k =>
    if k.e ≠ k.w ∧ k.buf (cell (k.e - 1)) ≠ newline then killLoop n { k with e := k.e - 1 } else k

/-- The flag tells that the readers are woken. -/
def consoleintr (c : UInt8) (k : Cons) : Cons × Bool :=
  if c = C 'P' then (k, false)
  else if c = C 'U' then (killLoop (k.e - k.w).toNat k, false)
  else if c = C 'H' ∨ c = 0x7f then (if k.e ≠ k.w then { k with e := k.e - 1 } else k, false)
  else if c ≠ 0 ∧ k.e - k.r < BitVec.ofNat 32 INPUT_BUF_SIZE then
    let c := if c = carriageReturn then newline else c
    let k := { k with buf := Function.update k.buf (cell k.e) c, e := k.e + 1 }
    if c = newline ∨ c = C 'D' ∨ k.e - k.r = BitVec.ofNat 32 INPUT_BUF_SIZE then
      ({ k with w := k.e }, true)
    else (k, false)
  else (k, false)

/-! ## A line editor -/

structure Editor where
  done : List UInt8
  line : List UInt8

/-- A character is typed while `unread` committed ones have not been read. -/
def Editor.input (ed : Editor) (unread : ℕ) (c : UInt8) : Editor :=
  if c = C 'P' ∨ c = 0 then ed
  else if c = C 'U' then { ed with line := [] }
  else if c = C 'H' ∨ c = 0x7f then { ed with line := ed.line.dropLast }
  else if unread + ed.line.length < INPUT_BUF_SIZE then
    let c := if c = carriageReturn then newline else c
    let line := ed.line ++ [c]
    if c = newline ∨ c = C 'D' ∨ unread + line.length = INPUT_BUF_SIZE then ⟨ed.done ++ line, []⟩
    else ⟨ed.done, line⟩
  else ed

/-! ## The shared data -/

/-- The editor, and the history of the reads: how many there have been, the bytes each has taken out
of the buffer, the bytes copied to the readers, and what was returned. -/
structure Trace where
  editor : Editor
  calls : ℕ
  taken : List (ℕ × UInt8)
  delivered : List UInt8
  returned : List (ℕ × ℤ)

def Trace.unread (tr : Trace) : List UInt8 := tr.editor.done.drop tr.taken.length

structure Shared (n : ℕ) where
  cons : Cons
  killed : Fin n → Bool
  trace : Trace

namespace Shared
variable {n : ℕ} (d : Shared n)

def intr (c : UInt8) : Shared n :=
  { d with
    cons := (consoleintr c d.cons).1
    trace := { d.trace with editor := d.trace.editor.input d.trace.unread.length c } }

def take (k : ℕ) (c : UInt8) : Shared n :=
  { d with
    cons := { d.cons with r := d.cons.r + 1 }
    trace := { d.trace with taken := d.trace.taken ++ [(k, c)] } }

def deliver (c : UInt8) : Shared n :=
  { d with trace := { d.trace with delivered := d.trace.delivered ++ [c] } }

def ret (k : ℕ) (value : ℤ) : Shared n :=
  { d with trace := { d.trace with returned := d.trace.returned ++ [(k, value)] } }

def init : Shared n where
  cons := ⟨fun _ => 0, 0, 0, 0⟩
  killed := fun _ => false
  trace := ⟨⟨[], []⟩, 0, [], [], []⟩

end Shared

/-! ## The processes -/

/-- Where a process stands; read number `k` has `target` and `n` as its variables, and a destination
that is valid or not. -/
inductive Place where
  | idle
  | intr (c : UInt8)
  | woke
  | read (k : ℕ) (valid : Bool) (target n : ℤ)
  deriving DecidableEq

inductive Call (n : ℕ) where
  | intr (c : UInt8)
  | read (valid : Bool) (n : ℤ)
  | kill (q : Fin n)

def call {n : ℕ} (d : Shared n) : Call n → Place → Option (Shared n × Place)
  | .intr c, .idle => some (d, .intr c)
  | .read valid m, .idle =>
    some ({ d with trace := { d.trace with calls := d.trace.calls + 1 } },
      .read d.trace.calls valid m m)
  | .kill q, .idle => some ({ d with killed := Function.update d.killed q true }, .idle)
  | _, _ => none

/-- An iteration of the loop of `consoleread`. -/
def consoleread {n : ℕ} (p : Fin n) (d : Shared n) (k : ℕ) (valid : Bool) (target m : ℤ) :
    Act (Shared n) Place :=
  if m > 0 then
    if d.cons.r = d.cons.w then
      if d.killed p then .leave (d.ret k (-1)) .idle else .sleep (.read k valid target m)
    else
      let c := d.cons.buf (cell d.cons.r)
      if c = C 'D' then
        -- `cons.r` is set back, so the next read finds the end of file again
        if m < target then .leave (d.ret k (target - m)) .idle
        else .leave ((d.take k c).ret k (target - m)) .idle
      else if valid then
        let d := (d.take k c).deliver c
        if c = newline then .leave (d.ret k (target - (m - 1))) .idle
        else .go d (.read k valid target (m - 1))
      else .leave ((d.take k c).ret k (target - m)) .idle
  else .leave (d.ret k (target - m)) .idle

def act {n : ℕ} (p : Fin n) (d : Shared n) : Place → Outcome Empty (Act (Shared n) Place)
  | .idle => .blocked
  | .intr c =>
    .ok (if (consoleintr c d.cons).2 then .wake (d.intr c) .woke else .leave (d.intr c) .idle)
  | .woke => .ok (.leave d .idle)
  | .read k valid target m => .ok (consoleread p d k valid target m)

def program (n : ℕ) : Monitor.Program n (Shared n) Place (Call n) Empty where
  enters x := x ≠ .idle
  free c _ d x := call d c x
  act p d x := act p d x

def Call.valid {n : ℕ} : Call n → Bool
  | read valid _ => valid
  | _ => true

def sys (n : ℕ) : TransSys (Monitor.State n (Shared n) Place) (Monitor.Event n (Call n)) :=
  Monitor.sys ((program n).only Call.valid) Shared.init .idle

end Console
end Xv6
