import Kurios.Drivers.IoSched
import Kurios.Drivers.Partition
import Kurios.Ext2.Names
import Kurios.Fat32.NameOps
import Kurios.Fs.Access
import Kurios.Heap.Kmalloc
import Kurios.Ipc.Named
import Kurios.Ipc.Semaphore
import Kurios.Net.Tcp
import Kurios.Net.UnixSocket
import Kurios.Proc.Fork
import Kurios.Proc.Groups
import Kurios.Proc.Placement
import Kurios.Proc.Spaces
import Kurios.Proc.Wait
import Kurios.Ramfs.Tree
import Kurios.Sched.SyscallStack
import Kurios.Signal.Handlers
import Kurios.Signal.Mask
import Kurios.Signal.Target
import Kurios.Vm.Coherence
import Kurios.Vm.Containment
import Kurios.Vm.Munmap
import Kurios.Vm.Windows
import Kurios.Fs.Pipe
import Kurios.Fat32.Alloc
import Kurios.Fat32.RoundTrip
import Kurios.Fs.Descriptors
import Kurios.Fs.Getdents
import Kurios.Sync.RwLock
import Kurios.Drivers.PartitionTable
