import Xv6.Bio.Lru
import Xv6.Bio.Room
import Xv6.Console.Lines
import Xv6.File.Exact
import Xv6.Fs.Alloc
import Xv6.Fs.Files
import Xv6.Fs.Filewrite
import Xv6.Log.Admission
import Xv6.Log.Crash
import Xv6.Log.Reserve
import Xv6.Pipe.Fault
import Xv6.Pipe.Fifo
import Xv6.Pipe.Sleepers
import Xv6.Sched.Aging
import Xv6.Sched.History
import Xv6.Sched.Kill
import Xv6.Sched.Lottery
import Xv6.Sched.Mlfq
import Xv6.Sched.QueueFifo
import Xv6.Sched.Slices
import Xv6.Sched.Start
import Xv6.Sleeplock
import Xv6.Task.Accounting
import Xv6.Task.ForkFail
import Xv6.Task.Wait
import Xv6.Trap.Sleep
import Xv6.Trap.Trace
import Xv6.Uart
import Xv6.User.Grep
import Xv6.User.Memmove
import Xv6.Virtio.Protocol
import Xv6.Vm.Isolation
import Xv6.Vm.Resize
import Xv6.Vm.Sv39Map
