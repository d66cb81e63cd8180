import Hexv6.Sched.Bounds
import Hexv6.Fs.Range
import Hexv6.Sched.Dispatch
import Hexv6.Sched.Meter
import Hexv6.Log.Space
import Hexv6.Ipc.Stream
import Hexv6.Ipc.Wakeup
import Hexv6.Bio.Structure
import Hexv6.Smp.Fresh
import Hexv6.Smp.Waitx
import Hexv6.Blk.Coherent
import Hexv6.Smp.Pids
import Hexv6.Smp.Sleep
import Hexv6.Virtio.Protocol
import Hexv6.Dir.Map
import Hexv6.Smp.Reap
import Hexv6.Mkfs.Kernel
import Hexv6.Fd.Exact
import Hexv6.Sched.Pbs
import Hexv6.Vm.Waitx
import Hexv6.Sched.Aging
import Hexv6.Sched.Fcfs
import Hexv6.Smp.Dynamic
import Hexv6.Fs.Counting
import Hexv6.Ipc.Read
import Hexv6.File.Fileread
import Hexv6.File.Reserve
import Hexv6.File.Partial
import Hexv6.Ino.Reading
import Hexv6.Sched.Ticks
import Hexv6.Vm.Syscall
import Hexv6.Vm.Copyinstr
import Hexv6.Mem.Memmove
import Hexv6.Grep.Lines
