import OsKernel.Lib.Run
import OsKernel.Lib.Prog
import OsKernel.Lib.Ring
import OsKernel.Lib.Nodes
import OsKernel.Lib.Deque
import OsKernel.Lib.Seq
import OsKernel.Vm.Exclusive
import OsKernel.Vm.Frames
import OsKernel.Memory.ZeroFrame
import OsKernel.Process.Wait
import OsKernel.Process.Wakeup
import OsKernel.Process.Drain
import OsKernel.Process.Handover
import OsKernel.Machine.Privilege
import OsKernel.Syscall.ForkCtrlBlk
import OsKernel.Syscall.Exec
import OsKernel.Syscall.Packet
import OsKernel.Guest.Console
import OsKernel.Guest.Machine
import OsKernel.Guest.Hypercall
import OsKernel.Guest.Confine
import OsKernel.Guest.Rules
import OsKernel.Guest.Push
import OsKernel.Guest.VirtualIdt
import OsKernel.Guest.Delivery
import OsKernel.Guest.Screen
import OsKernel.Lib.Groups
import OsKernel.Sched.Lists
import OsKernel.Sched.RoundRobin
import OsKernel.Sched.Sleep
import OsKernel.Sched.Deschedule
import OsKernel.Sched.Readline
import OsKernel.Input.Buffer
import OsKernel.Input.Readline
import OsKernel.Vm.Map
import OsKernel.Lib.Heap
import OsKernel.Syscall.LoadHeap
import OsKernel.Libthread.Threads
import OsKernel.Libthread.Join
import OsKernel.Libthread.Stack
import OsKernel.Libthread.Rwlock
import OsKernel.Libthread.Exclusion
import OsKernel.Lib.Roster
import OsKernel.Libthread.Sem
import OsKernel.Libthread.Cond
import OsKernel.Process.Swexn
import OsKernel.Libthread.LinkedList
import OsKernel.Libthread.Destruct
import OsKernel.Libthread.Downgrade
import OsKernel.Sched.Rings
import OsKernel.Sched.Alter
import OsKernel.Vm.UserTables
import OsKernel.Syscall.Pointer
import OsKernel.Loader.Plan
import OsKernel.Loader.Sections
import OsKernel.Loader.Stack
import OsKernel.Loader.Run
import OsKernel.Loader.Image
import OsKernel.Loader.Access
import OsKernel.Loader.Arguments
import OsKernel.Loader.Reexec
import OsKernel.Vm.Supply
import OsKernel.Loader.Supply
import OsKernel.Loader.Guest
import OsKernel.Guest.Cells
import OsKernel.Guest.Printing
import OsKernel.Guest.PrintAt
import OsKernel.Input.Echo
import OsKernel.Process.ChildScan
import OsKernel.Guest.PageDir
import OsKernel.Loader.PushVal
import OsKernel.Input.Scancodes
import OsKernel.Libthread.Create
import OsKernel.Lib.Stack
import OsKernel.Machine.Context
import OsKernel.Sched.Switching
import OsKernel.Syscall.Directories
import OsKernel.Syscall.Faults
import OsKernel.Syscall.Runs
import OsKernel.Syscall.Removals
import OsKernel.Lists.Macros
import OsKernel.Syscall.Stale
import OsKernel.Locks.Handlers
import OsKernel.Locks.System
import OsKernel.Locks.Actions
import OsKernel.Locks.Rules
import OsKernel.Locks.Regions
import OsKernel.Locks.Order
import OsKernel.Locks.Runs
import OsKernel.Locks.Ended
import OsKernel.Sched.Splices
import OsKernel.Dispatch.Machine
import OsKernel.Dispatch.Rows
import OsKernel.Dispatch.Invariant
import OsKernel.Dispatch.Moves
import OsKernel.Dispatch.Ends
import OsKernel.Dispatch.Regions
import OsKernel.Dispatch.Readers
import OsKernel.Dispatch.Steps
import OsKernel.Dispatch.Handlers
import OsKernel.Dispatch.Runs
import OsKernel.Dispatch.Idle
import OsKernel.Lib.Ranges
import OsKernel.Lib.Words
import OsKernel.Lmm.Machine
import OsKernel.Lmm.Lists
import OsKernel.Lmm.Alloc
import OsKernel.Lmm.AllocGen
import OsKernel.Lmm.Regions
import OsKernel.Lmm.Free
import OsKernel.Lmm.Setup
import OsKernel.Malloc.Machine
import OsKernel.Malloc.Sound
import OsKernel.Malloc.Calls
import OsKernel.Malloc.Returns
import OsKernel.Malloc.Runs
import OsKernel.Malloc.Fits
import OsKernel.Malloc.Boot
import OsKernel.Locks.Exchange
