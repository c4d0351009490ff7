import Xv6.Lib.Monitor
import Xv6.Lib.RingBuf

/-! # The output buffer of the uart

`uartputc`, `uartstart` and the output half of `uartintr` of `kernel/uart.c`, called by any
processes; an interrupt counts as one. The code is a monitor: `uart_tx_lock` is its spinlock and
`&uart_tx_r` its channel. The device interrupts when it sets `LSR_TX_IDLE`.
-/

namespace Xv6.Uart
set_option autoImplicit false
open Monitor (Act)
open Function (update_self update_of_ne update_eq_self)

def UART_TX_BUF_SIZE : ℕ := 32

instance : NeZero UART_TX_BUF_SIZE := ⟨by decide⟩

/-- `tx` is `uart_tx_buf` with `uart_tx_r` as `first` and `uart_tx_w` as `next`; `idle` is
`LSR_TX_IDLE` and `irq` a pending interrupt of the device. As ghost data, the bytes that `uartputc`
has stored and those that `uartstart` has written to `THR`. -/
structure Shared where
  tx : RingBuf 64 UART_TX_BUF_SIZE UInt8
  idle : Bool
  irq : Bool
  stored : List UInt8
  sent : List UInt8

inductive Place where
  | idle
  | putc (c : UInt8)
  | start
  deriving DecidableEq

inductive Call where
  | putc (c : UInt8)
  | intr
  | device (idle : Bool)

def call (d : Shared) : Call → Place → Option (Shared × Place)
  | .putc c, .idle => some (d, .putc c)
  | .intr, .idle => some ({ d with irq := false }, .start)
  | .device b, x => some ({ d with idle := b, irq := d.irq || b }, x)
  | _, _ => none

/-- The loop of `uartputc` up to the call of `uartstart`. -/
def uartputc (c : UInt8) (d : Shared) : Act Shared Place :=
  if d.tx.next = d.tx.first + BitVec.ofNat 64 UART_TX_BUF_SIZE then .sleep (.putc c)
  else .go { d with tx := d.tx.push c, stored := d.stored ++ [c] } .start

/-- An iteration of `uartstart`, and the release of the lock after it. No one looks at `THR` between
`wakeup` and the write after it, so the write is part of the same step. -/
def uartstart (d : Shared) : Act Shared Place :=
  if d.tx.next = d.tx.first then .leave d .idle
  else if d.idle = false then .leave d .idle
  else
    let c := d.tx.data (RingBuf.cell d.tx.first)
    .wake { d with tx := d.tx.pop, sent := d.sent ++ [c] } .start

def act (d : Shared) : Place → Outcome Empty (Act Shared Place)
  | .idle => .blocked
  | .putc c => .ok (uartputc c d)
  | .start => .ok (uartstart d)

def program (n : ℕ) : Monitor.Program n Shared Place Call Empty where
  enters x := x ≠ .idle
  free c _ d x := call d c x
  act _ d x := act d x

def Shared.init : Shared := ⟨⟨fun _ => 0, 0, 0⟩, true, false, [], []⟩

def sys (n : ℕ) : TransSys (Monitor.State n Shared Place) (Monitor.Event n Call) :=
  Monitor.sys (program n) Shared.init .idle

/-! ## The invariant -/

structure Inv {n : ℕ} (d : Shared) (pl : Fin n → Place) : Prop where
  room : d.tx.used ≤ UART_TX_BUF_SIZE
  stream : d.stored = d.sent ++ d.tx.contents
  served : d.tx.next ≠ d.tx.first → d.idle = false ∨ d.irq = true ∨ ∃ p, pl p = .start

def Ready (d : Shared) : Prop := d.tx.used < UART_TX_BUF_SIZE

theorem full_iff {d : Shared} : d.tx.next = d.tx.first + BitVec.ofNat 64 UART_TX_BUF_SIZE ↔
    d.tx.used = UART_TX_BUF_SIZE := (RingBuf.used_eq_iff (by decide)).symm

section
variable {n : ℕ} {d : Shared} {pl : Fin n → Place} {p : Fin n}

theorem Inv.uartputc (h : Inv d pl) {c : UInt8} (hp : pl p = .putc c) :
    (uartputc c d).Sound Inv Ready p d pl := by
  unfold Uart.uartputc
  split
  · next hfull =>
    refine ⟨?_, fun hready => absurd (full_iff.mp hfull) hready.ne⟩
    rwa [← hp, update_eq_self]
  · next hfull =>
    have hlt : d.tx.used < UART_TX_BUF_SIZE := lt_of_le_of_ne h.room (mt full_iff.mpr hfull)
    have hused := RingBuf.used_push (by decide) hlt c
    refine ⟨⟨?_, ?_, fun _ => .inr (.inr ⟨p, update_self _ _ _⟩)⟩, fun _ => hlt⟩
    · show (d.tx.push c).used ≤ _
      omega
    · show d.stored ++ [c] = d.sent ++ (d.tx.push c).contents
      rw [RingBuf.contents_push (by decide) (by decide) hlt, h.stream, List.append_assoc]

theorem Inv.uartstart (h : Inv d pl) : (uartstart d).Sound Inv Ready p d pl := by
  unfold Uart.uartstart
  split
  · next hempty =>
    exact ⟨⟨h.room, h.stream, fun hne => absurd hempty hne⟩, id⟩
  split
  · next hbusy => exact ⟨⟨h.room, h.stream, fun _ => .inl hbusy⟩, id⟩
  · next hne _ =>
    have hpos : 0 < d.tx.used := Nat.pos_of_ne_zero fun h => hne (RingBuf.used_eq_zero.mp h).symm
    obtain ⟨hcons, hused⟩ := RingBuf.contents_pop hpos
    refine ⟨?_, ?_, fun _ => .inr (.inr ⟨p, update_self _ _ _⟩)⟩
    · have := h.room
      show d.tx.pop.used ≤ _
      omega
    · show d.stored = (d.sent ++ [_]) ++ d.tx.pop.contents
      rw [h.stream, hcons, List.append_assoc]
      rfl

theorem sound : (program n).Sound Inv Ready where
  free := by
    intro a p d pl d' pc h hfree
    change call d a (pl p) = _ at hfree
    cases hp : pl p <;> cases a <;> rw [hp] at hfree <;> cases hfree
    case idle.putc c =>
      refine ⟨⟨h.room, h.stream, fun hne => ?_⟩, id⟩
      refine (h.served hne).imp id (Or.imp id ?_)
      rintro ⟨q, hq⟩
      have hqp : q ≠ p := by
        rintro rfl
        rw [hp] at hq
        cases hq
      exact ⟨q, by rwa [update_of_ne hqp]⟩
    case idle.intr => exact ⟨⟨h.room, h.stream, fun _ => .inr (.inr ⟨p, update_self _ _ _⟩)⟩, id⟩
    all_goals
      next b =>
      refine ⟨⟨h.room, h.stream, fun _ => ?_⟩, id⟩
      cases b with
      | false => exact .inl rfl
      | true => exact .inr (.inl (Bool.or_true _))
  act := by
    intro p d pl a h hact
    change act d (pl p) = _ at hact
    cases hp : pl p <;> rw [hp] at hact <;> cases hact
    · exact h.uartputc hp
    · exact h.uartstart

variable {s : Monitor.State n Shared Place}

theorem ok_of_reachable (hs : (sys n).Reachable s) : Monitor.Ok Inv Ready s :=
  sound.ok ⟨Nat.zero_le _, rfl, fun hne => absurd rfl hne⟩ hs

/-- The bytes written to `THR` are those stored by `uartputc`, in that order and each once; the
rest, at most 32, is in the buffer. Bytes in the buffer are not forgotten: the device is busy, it
has an interrupt pending, or a process is going to run `uartstart`. -/
theorem output_in_order (hs : (sys n).Reachable s) :
    (∃ rest, s.data.stored = s.data.sent ++ rest ∧ rest.length ≤ UART_TX_BUF_SIZE) ∧
    (s.data.sent ≠ s.data.stored →
      s.data.idle = false ∨ s.data.irq = true ∨ ∃ p, s.place p = .start) := by
  have h := (ok_of_reachable hs).data
  refine ⟨⟨_, h.stream, ?_⟩, fun hne => h.served fun hempty => hne ?_⟩
  · rw [RingBuf.length_contents]
    exact h.room
  · have hnil : s.data.tx.contents = [] := by
      rw [← List.length_eq_zero_iff, RingBuf.length_contents]
      exact RingBuf.used_eq_zero.mpr hempty.symm
    rw [h.stream, hnil, List.append_nil]

def fillBuffer : List (Monitor.Event 2 Call) :=
  .free 0 (.device false) ::
    (List.replicate 32 [.free 0 (.putc 7), .enter 0, .act 0, .act 0]).flatten ++
    [.free 1 (.putc 7), .enter 1, .act 1, .doze 1]

theorem run_fillBuffer : ∃ s : Monitor.State 2 Shared Place, (sys 2).Reachable s ∧
    s.lock = none ∧ s.mode 1 = .sleeping (.putc 7) := by
  have hrun : (TransSys.exec (fun s e => (Monitor.step (program 2) s e).result)
      ⟨Shared.init, none, fun _ => .out .idle⟩ fillBuffer).map
        (fun s => decide (s.lock = none ∧ s.mode 1 = .sleeping (.putc 7))) = some true := by
    decide +kernel
  obtain ⟨s, hs, htest⟩ := Option.map_eq_some_iff.mp hrun
  have hrun : (sys 2).Run _ fillBuffer s := .of_exec (fun _ _ _ => Outcome.result_eq_some.mp) hs
  exact ⟨s, (TransSys.Reachable.init rfl).run hrun, of_decide_eq_true htest⟩

theorem output_in_order_fillBuffer : ∃ s : Monitor.State 2 Shared Place, (sys 2).Reachable s ∧
    ∃ rest, s.data.stored = s.data.sent ++ rest ∧ rest.length ≤ 32 := by
  obtain ⟨s, hs, -⟩ := run_fillBuffer
  exact ⟨s, hs, (output_in_order hs).1⟩

/-- Whenever the lock is free, a process sleeps in `uartputc` only if the buffer is full. -/
theorem no_stuck_writer (hs : (sys n).Reachable s) (hfree : s.lock = none) {x : Place}
    (hp : s.mode p = .sleeping x) :
    s.data.stored.length = s.data.sent.length + UART_TX_BUF_SIZE := by
  have hok := ok_of_reachable hs
  have hfull := hok.not_ready_of_free hfree hp
  unfold Ready at hfull
  have hroom := hok.data.room
  rw [hok.data.stream, List.length_append, RingBuf.length_contents]
  omega

theorem no_stuck_writer_fillBuffer : ∃ s : Monitor.State 2 Shared Place, (sys 2).Reachable s ∧
    s.data.stored.length = s.data.sent.length + 32 := by
  obtain ⟨s, hs, hfree, hq⟩ := run_fillBuffer
  exact ⟨s, hs, no_stuck_writer hs hfree hq⟩

end
end Xv6.Uart
