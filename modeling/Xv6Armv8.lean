import Xv6Armv8.BioInv
import Xv6Armv8.ConsoleEditor
import Xv6Armv8.Dispatch
import Xv6Armv8.FileRead
import Xv6Armv8.ForkExec
import Xv6Armv8.FsPath
import Xv6Armv8.FsWrite
import Xv6Armv8.Gic
import Xv6Armv8.Grep
import Xv6Armv8.IntrExit
import Xv6Armv8.Kalloc
import Xv6Armv8.KernelSbrk
import Xv6Armv8.KernelTlb
import Xv6Armv8.LogCrash
import Xv6Armv8.LogGroup
import Xv6Armv8.Memmove
import Xv6Armv8.MkfsImage
import Xv6Armv8.MkfsRead
import Xv6Armv8.PipeFifo
import Xv6Armv8.Printf
import Xv6Armv8.ProcFamily
import Xv6Armv8.ProcKill
import Xv6Armv8.TrapFrame
import Xv6Armv8.Uart
import Xv6Armv8.Umalloc
import Xv6Armv8.VirtioInv
import Xv6Armv8.VmUser
import Xv6Armv8.ExecArgs
