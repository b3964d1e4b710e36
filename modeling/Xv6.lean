import Xv6.Pipe.Theorems
import Xv6.Proc.Theorems
import Xv6.Proc.Sleeplock
import Xv6.Console.Theorems
import Xv6.Vm.Trap
import Xv6.Syscall.Theorems
import Xv6.Grep.Theorems
import Xv6.Icache.Theorems
import Xv6.Limits.Theorems
import Xv6.Filewrite.Budget
import Xv6.Filewrite.Alone
import Xv6.Sysfile.Dirlink
import Xv6.Sysfile.Namex
import Xv6.Vm.UvmTheorems
import Xv6.Grep.Regex
import Xv6.Mp.Theorems
import Xv6.Sh.Pipeline
import Xv6.Sh.Terminate
import Xv6.Fs.Holes
import Xv6.Ide.Errors
import Xv6.Bio.Swap
import Xv6.Log.Header
import Xv6.Umalloc.Sbrk
import Xv6.Ulib.Memmove
import Xv6.Ulib.Printint
import Xv6.Vm.Mappages
import Xv6.Bio.Links
import Xv6.Proc.Spinlock
import Xv6.Proc.Turns
import Xv6.Sysfile.Crash
