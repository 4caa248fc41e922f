import Xv6.Lib.Bytes
import Xv6.Lib.DiskProg
import Xv6.Lib.Dlist
import Xv6.Lib.Fifo
import Xv6.Lib.Machine
import Xv6.Lib.Prog
import Xv6.Lib.Radix
import Xv6.Lib.Safe
import Xv6.Param
import Xv6.FsLayout
import Xv6.LogHeader
import Xv6.LogDisk
import Xv6.LogCrash
import Xv6.Log
import Xv6.LogOps
import Xv6.LogRoom
import Xv6.Bcache
import Xv6.BcacheInv
import Xv6.BcacheRefine
import Xv6.BcacheRoom
import Xv6.LogPins
import Xv6.Bio
import Xv6.Virtio
import Xv6.VirtioInv
import Xv6.VirtioStep
import Xv6.Fs
import Xv6.FsOwn
import Xv6.FsMap
import Xv6.FileContent
import Xv6.Itable
import Xv6.NoHoles
import Xv6.Realloc
import Xv6.Dirent
import Xv6.SysFile
import Xv6.Kernel
import Xv6.FsRun
import Xv6.WriteLog
import Xv6.FsBudget
import Xv6.Reserve
import Xv6.Refs
import Xv6.RefsInv
import Xv6.FileWrite
import Xv6.Pipe
import Xv6.PipeFifo
import Xv6.PipeRead
import Xv6.PipeSleep
import Xv6.Proc
import Xv6.Cpu
import Xv6.ProcSpec
import Xv6.ProcView
import Xv6.ProcCode
import Xv6.ProcInv
import Xv6.ProcStack
import Xv6.ProcNotes
import Xv6.ProcKin
import Xv6.ProcStep
import Xv6.ProcOps
import Xv6.ProcRun
import Xv6.ProcSafe
import Xv6.Vm
import Xv6.VmTable
import Xv6.VmCopy
import Xv6.VmMap
import Xv6.Memmove
import Xv6.ShortWrite
import Xv6.Dir
import Xv6.Namex
import Xv6.User
import Xv6.Pingpong
import Xv6.Find
import Xv6.Grep
import Xv6.Xargs
import Xv6.Console
import Xv6.Sh
import Xv6.ShGrammar
import Xv6.ShPrint
import Xv6.Mkfs
import Xv6.MkfsInv
import Xv6.MkfsImage
import Xv6.MkfsBoot
