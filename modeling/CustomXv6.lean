import CustomXv6.Kernel.Limits
import CustomXv6.Kernel.Reaping
import CustomXv6.Kernel.CrashSafety
import CustomXv6.Kernel.Progress
import CustomXv6.Kernel.Exec
import CustomXv6.Kernel.FileCalls
import CustomXv6.Kernel.Console
import CustomXv6.Kernel.Memmove
import CustomXv6.Kernel.Pipe
import CustomXv6.Kernel.Printf
import CustomXv6.Kernel.BufferCache
import CustomXv6.Kernel.FailedCalls
import CustomXv6.User.ShellParser
import CustomXv6.User.MallocSafety
import CustomXv6.Kernel.VirtioSafety
import CustomXv6.Kernel.Uart
import CustomXv6.Kernel.Wakeup
import CustomXv6.Kernel.ChildProcesses
import CustomXv6.User.Grep
