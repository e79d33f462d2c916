import Jlos.Heap.Smp
import Jlos.Slab.Runs
import Jlos.Kmem.Runs
import Jlos.Paging.Runs
import Jlos.Sync.Ownership
import Jlos.PageCache.Contents
import Jlos.PageCache.Dirty
import Jlos.PageCache.Interleaved
import Jlos.Vfs.Unmount
import Jlos.Vfs.Balance
import Jlos.Fat32.Reuse
import Jlos.Vfs.Regular
import Jlos.Fat32.Create
import Jlos.Sync.Ticket
import Jlos.Signal.Sigreturn
import Jlos.Sync.Semaphore
import Jlos.Ipc.MessageQueue
import Jlos.Ipc.PipeCounts
import Jlos.Signal.Kill
import Jlos.Net.Dhcp
import Jlos.Net.Dns
import Jlos.Net.Storm
import Jlos.Net.Stream
import Jlos.Net.Ports
import Jlos.Net.Checksum
import Jlos.Net.Delivery
import Jlos.Workqueue.Runs
import Jlos.Dsa.Timers
import Jlos.Tasks.Wait
import Jlos.Tasks.Sleep
import Jlos.Paging.Asid
import Jlos.Time.Timek
import Jlos.Time.Calendar
import Jlos.Tasks.Zombies
import Jlos.Ipc.Access
import Jlos.Tasks.Table
import Jlos.Syscall.Uaccess
import Jlos.Fat32.ShortName
import Jlos.Vfs.Path
