import Xv6.Bio.Representation
import Xv6.Console.Reads
import Xv6.Crash.Recovery
import Xv6.Fs.LoggedBlocks
import Xv6.Fs.ShortWrite
import Xv6.Grep.Lines
import Xv6.Kernel.ExecImage
import Xv6.Kernel.Fault
import Xv6.Kernel.Fork
import Xv6.Kernel.Munmap
import Xv6.Kernel.PageConservation
import Xv6.Kernel.Sbrk
import Xv6.Kernel.SharedOffset
import Xv6.Kernel.UserStores
import Xv6.Log.Atomicity
import Xv6.Log.Reservation
import Xv6.Malloc.Break
import Xv6.Names.Bindings
import Xv6.Pipes.Delivery
import Xv6.Procs.Kill
import Xv6.Procs.Sleep
import Xv6.Procs.Statuses
import Xv6.Spinlock.Nesting
import Xv6.Vm.Copy
import Xv6.Vm.FiniteMap
import Xv6.Vm.UserCopy
