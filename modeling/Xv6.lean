import Xv6.Fs.Budget
import Xv6.Fs.Short
import Xv6.Grep.Grep
import Xv6.Libc.Memmove
import Xv6.Libc.Printf
import Xv6.Log.Crash
import Xv6.Log.Protocol
import Xv6.Log.Reserve
import Xv6.Mkfs.Agree
import Xv6.Pipes.Safe
import Xv6.Process.Info
import Xv6.Process.Priority
import Xv6.Results
import Xv6.Shell.Accepts
import Xv6.Shell.Wiring
import Xv6.Sleeplock.Safe
import Xv6.User.Sbrk
import Xv6.Vm.Program
import Xv6.Vm.Strings
