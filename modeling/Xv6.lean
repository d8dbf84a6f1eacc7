import Xv6.Bytes
import Xv6.Machine
import Xv6.Param
import Xv6.Bio
import Xv6.Redo
import Xv6.Log
import Xv6.CacheInv
import Xv6.LogInv
import Xv6.LogStep
import Xv6.LogThread
import Xv6.LogRun
import Xv6.LogHistory
import Xv6.LogSpace
import Xv6.Coherence
import Xv6.Proc
import Xv6.ProcInv
import Xv6.ProcStep
import Xv6.ProcRun
import Xv6.Scheduler
import Xv6.ProcEffect
import Xv6.Kill
import Xv6.ProcStack
import Xv6.Family
import Xv6.Pid
import Xv6.Guard
import Xv6.Reap
import Xv6.Sleep
import Xv6.Wakeup
import Xv6.Nap
import Xv6.Prog
import Xv6.Riscv
import Xv6.Kalloc
import Xv6.Vm
import Xv6.PageTable
import Xv6.Walk
import Xv6.Uvm
import Xv6.Freewalk
import Xv6.AddrSpace
import Xv6.UserCopy
import Xv6.ProcTable
import Xv6.Exec
import Xv6.ExecSpec
import Xv6.File
import Xv6.UserSys
import Xv6.FileRef
import Xv6.PageOwner
import Xv6.UserMem
import Xv6.PipeEnds
import Xv6.ProcLife
import Xv6.Fork
import Xv6.UserRun
import Xv6.ForkCwd
import Xv6.UserSafety
import Xv6.KallocRun
import Xv6.ExecAtomic
import Xv6.ExecImage
import Xv6.UserAccess
import Xv6.UserString
import Xv6.PageMap
import Xv6.History
import Xv6.Linked
import Xv6.Blocks
import Xv6.Umalloc
import Xv6.UmallocFree
import Xv6.UmallocSpec
import Xv6.HistoryList
import Xv6.HistoryBounds
import Xv6.Parse
import Xv6.Grammar
import Xv6.Fs
import Xv6.FsFormat
import Xv6.FsRead
import Xv6.FsAlloc
import Xv6.FsWrite
import Xv6.FsFile
import Xv6.Directory
import Xv6.Path
import Xv6.Reservation
import Xv6.SharedFile
import Xv6.Itable
import Xv6.ItableInv
import Xv6.Mkfs
import Xv6.MkfsSpec
import Xv6.MkfsImage
import Xv6.MkfsRead
import Xv6.Ring
import Xv6.Pipe
import Xv6.Console
import Xv6.ConsoleEditor
import Xv6.FileRead
import Xv6.PipeFifo
import Xv6.Virtio
import Xv6.VirtioDriver
import Xv6.VirtioProtocol
import Xv6.Memmove
import Xv6.Printint
import Xv6.Grep
