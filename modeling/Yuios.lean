import Yuios.Fs.Syscall
import Yuios.Cache.Model
import Yuios.Cache.Unique
import Yuios.Cache.Wakeup
import Yuios.Fs.Alloc
import Yuios.Fs.Clean
import Yuios.Fs.CleanRun
import Yuios.Fs.Ownership
import Yuios.Fs.OwnershipRun
import Yuios.Fs.Together
import Yuios.Fs.ZoneMap
import Yuios.Fs.InodeMap
import Yuios.Fs.FullVolume
import Yuios.Cache.LastWrite
import Yuios.Cache.Region
import Yuios.Fs.NameiRefs
import Yuios.Fs.InodeTasks
import Yuios.Fs.HolderRun
import Yuios.Pipe.Order
import Yuios.Pipe.Queue
import Yuios.Disk.Elevator
import Yuios.Fs.Rights
import Yuios.Fs.Holes
import Yuios.Fs.Truncate
import Yuios.Fs.Components
import Yuios.Kernel.Ards
import Yuios.Kernel.Lists
import Yuios.Kernel.Lock
import Yuios.Kernel.Family
import Yuios.Kernel.Slice
import Yuios.Kernel.Sleep
import Yuios.Kernel.Queues
import Yuios.Kernel.Dying
import Yuios.Kernel.KernelStore
import Yuios.Kernel.Fresh
import Yuios.Kernel.Faulting
import Yuios.Kernel.KernelPages
import Yuios.Kernel.WordScan
import Yuios.Fs.FullName
import Yuios.Kernel.StackImage
import Yuios.Disk.Drivers
import Yuios.Kernel.Serial
import Yuios.Kernel.Loader
import Yuios.Kernel.Malformed
import Yuios.Kernel.Console
import Yuios.Kernel.Terminal
import Yuios.Kernel.Keyboard
import Yuios.Kernel.Time
import Yuios.Fs.Dup
import Yuios.Shell.Readline
import Yuios.Shell.Parse
import Yuios.Shell.Exec
import Yuios.Text.Number
import Yuios.Text.Vsprintf
import Yuios.Text.Decimal
import Yuios.Kernel.Choice
import Yuios.Kernel.Waitpid
import Yuios.Kernel.Mmap
import Yuios.Kernel.ArenaRun
import Yuios.Fs.Counts
import Yuios.Fs.Seek
import Yuios.Fs.BlockTree
import Yuios.Fs.Opening
import Yuios.Fs.UmountRun
import Yuios.Kernel.Threads
import Yuios.Kernel.Memories
import Yuios.Fs.FirstUse
