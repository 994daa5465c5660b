import Xv6.Proc.NullPage
import Xv6.Sys.ArgsCheck
import Xv6.Ipc.ShrmemRegister
import Xv6.Sys.KernelAccess
import Xv6.Ipc.Pipe
import Xv6.Fs.LogQuota
import Xv6.Fs.LogNested
import Xv6.Fs.DirMap
import Xv6.Vm.Shrink
import Xv6.Vm.GrowTrace
import Xv6.Proc.ExecFailed
import Xv6.Proc.Signals
import Xv6.Proc.Wakeup
import Xv6.Proc.Spinlock
import Xv6.Fs.FileRun
import Xv6.Fs.BufCoherent
import Xv6.Fs.VpNames
import Xv6.Proc.Sharing
import Xv6.Proc.ExecArgs
import Xv6.Proc.Protection
import Xv6.Dev.Console
import Xv6.User.UmallocHuge
import Xv6.Dev.Mp
import Xv6.User.Regex
import Xv6.Vm.TwoLevel
