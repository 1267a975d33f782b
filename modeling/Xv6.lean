import Xv6.Sh.Command
import Xv6.Log.Atomic
import Xv6.Log.Reserve
import Xv6.Log.Waiters
import Xv6.Buf.Ide
import Xv6.Buf.Lru
import Xv6.Ipc.PipeSleep
import Xv6.Kernel.Family
import Xv6.Kernel.Kill
import Xv6.Console.Line
import Xv6.Kernel.SleepLock
import Xv6.Kernel.SemQueue
import Xv6.Kernel.TraceCount
import Xv6.Vm.Exec
import Xv6.Kernel.BestJob
import Xv6.Kernel.Children
import Xv6.Kernel.Aging
import Xv6.Buf.Spare
import Xv6.Sys.FileWrite
import Xv6.Vm.Fork
import Xv6.Sys.Args
import Xv6.User.Lcm
import Xv6.User.Grep
import Xv6.Console.Clipboard
import Xv6.User.Heap
import Xv6.Sys.Path
import Xv6.Memmove
import Xv6.Sys.Directory
import Xv6.Vm.Owners
import Xv6.Kernel.Ticks
