import Nubernel.Ashmem.Purge
import Nubernel.Logger.Writers
import Nubernel.Pmem.Allocator
import Nubernel.Pmem.Ownership
import Nubernel.Binder.Async
import Nubernel.Binder.Counts
import Nubernel.Wakelock.Suspend
import Nubernel.Cpufreq.Levels
import Nubernel.Dpram.Mux
import Nubernel.Dpram.Read
import Nubernel.Dpram.Lock
import Nubernel.Dpram.Writers
import Nubernel.Battery.Overcharge
import Nubernel.Battery.Celsius
import Nubernel.Memblock.Reserved
import Nubernel.Memblock.Lookup
import Nubernel.Radix.Preload
import Nubernel.Xvmalloc.Objects
import Nubernel.PrioTree.Intervals
import Nubernel.Pid.Order
import Nubernel.Genalloc.Blocks
import Nubernel.Resource.Allocate
import Nubernel.Resource.Split
import Nubernel.Resource.SystemRam
import Nubernel.Timers.Runs
import Nubernel.Timers.Slack
import Nubernel.Vsprintf.Bounded
import Nubernel.Vsprintf.Strtoul
import Nubernel.Ashmem.Pages
import Nubernel.Div64.Quotient
import Nubernel.Approx.Numbers
import Nubernel.Bitmaps.Words
import Nubernel.Kfifo.Concurrent
import Nubernel.LowMem.Killer
