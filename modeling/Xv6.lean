import Xv6.Log.Capacity
import Xv6.Sched.Reaping
import Xv6.Sched.Yield
import Xv6.Sched.Deadlock
import Xv6.Sched.Kill
import Xv6.Sync.SleepLock
import Xv6.Sync.Range
import Xv6.Vm.Lazy
import Xv6.Vm.Strings
import Xv6.Fs.Counts
import Xv6.Fs.Consistent
import Xv6.Fs.Reclaim
import Xv6.Fs.Directory
import Xv6.Files.Read
import Xv6.Mkfs.Format
import Xv6.Pipes.Fifo
import Xv6.Pipes.Wakeup
import Xv6.Virtio.Matching
import Xv6.Bio.Cache
import Xv6.Bio.Capacity
import Xv6.Exec.Program
import Xv6.User.Grep
import Xv6.Print.Integers
