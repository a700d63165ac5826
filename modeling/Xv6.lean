import Xv6.Disk.Coherent
import Xv6.Sched.Wait
import Xv6.Console.Reads
import Xv6.Heat.Account
import Xv6.Heat.Cooling
import Xv6.Heat.Boot
import Xv6.Vm.Kalloc
import Xv6.Vm.Shrink
import Xv6.Sys.ExecSafe
import Xv6.Sync.Sleeplock
import Xv6.Sync.GroupCommit
import Xv6.Activity.Failed
import Xv6.Fs.Readers
import Xv6.Fs.Balloc
import Xv6.Mkfs.Readback
import Xv6.User.Grep
import Xv6.Sync.SysSleep
import Xv6.Sched.CtrlC
import Xv6.Heat.Reuse
import Xv6.Fs.ReadLength
