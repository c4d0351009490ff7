import Xv6.Sched.State

/-! # How the schedulers compare processes

The choices inside the loops of `scheduler()`: the creation times FCFS compares, the dynamic
priorities and tie breaks of PBS, and the draw of LBS. Unsigned arithmetic wraps as in C.
-/

namespace Xv6.Sched
set_option autoImplicit false

/-- FCFS: after looking at a `RUNNABLE` process, the new `(flag, min_ticks, p_least_time)`. -/
def fcfsLook (p : Slot) (x : Proc) (pLeastTime : Slot) (flag : Bool) (minTicks : UInt32) :
    Slot × Bool × UInt32 :=
  if x.state = .runnable then
    if flag = false ∨ x.ctime < minTicks then (p, true, x.ctime)
    else (pLeastTime, true, minTicks)
  else (pLeastTime, flag, minTicks)

def niceness (x : Proc) : UInt64 :=
  if x.rtime = 0 then 5 else (x.stime / (x.rtime + x.stime) * 10).toUInt64

def getDynamicPriority (x : Proc) : UInt64 :=
  max 0 (min (UInt64.ofInt x.staticPriority - niceness x + 5) 100)

def pbsReplaces (minproc p : Proc) (dp minPriority : UInt64) : Bool :=
  if dp = minPriority then
    if minproc.schedCt = p.schedCt ∧ p.ctime < minproc.ctime then true
    else if minproc.schedCt = p.schedCt then false
    else if p.schedCt ≥ minproc.schedCt then false
    else true
  else if dp ≥ minPriority then false
  else true

def int (n : ℤ) : ℤ := n.bmod (2 ^ 32)

def totalTickets (m : Mem) : ℤ :=
  (List.finRange NPROC).foldl (fun total p =>
    if (m.proc p).state = .runnable then int (total + (m.proc p).tickets) else total) 0

/-- LBS: what is left of the draw `r` after the tickets of `p`; below zero, `p` wins. The remainder
is unsigned, and `allot` is an `int`. -/
def allot (m : Mem) (p : Slot) (r : UInt32) : ℤ :=
  int (int (r % UInt32.ofInt (totalTickets m)).toNat - (m.proc p).tickets)

end Xv6.Sched
