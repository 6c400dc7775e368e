/-
The handlers of the kernel, as far as mutexes go: which of them each handler takes and
releases, in which order, where it touches user memory in between, and what it does to the
process tree. Tests of other data are left open.

The order is that of the source: allocators and page directories (`kern/malloc_wrappers.c`,
`kern/vm.c`), faults (`kern/fault_handler.c`, `handle` in `kern/interrupt.c`), control
blocks (`kern/ctrl_blk.c`), system calls (`kern/system_call.c`) and hypervisor calls
(`kern/virtual_interrupt.c`). Where the source unlocks on each way out of a region, the
region is written with one unlock behind it.
-/

import OsKernel.Locks.Machine

namespace OsKernel.Locks

open Mutex

/-! ### Allocators -/

def malloc : Code Bool := do
  mutexLock memAllocationLock
  let success ← test
  mutexUnlock memAllocationLock
  return success

def smemalign : Code Bool := malloc

def free : Code Unit := do
  mutexLock memAllocationLock
  mutexUnlock memAllocationLock

def sfree : Code Unit := free

def allocFrame : Code Bool := do
  mutexLock vmLock
  -- `alloc_list` is not empty
  let success ← test
  onlyIf success free
  mutexUnlock vmLock
  return success

/-- The insertion of `free_frame`: no node is made where the frame is in the pool. -/
def insertFrame : Code Bool := do
  if ← test then malloc else return true

def freeFrame : Code Bool := do
  -- the frame is a user frame other than the zero frame
  if ← test then do
    mutexLock vmLock
    let success ← insertFrame
    mutexUnlock vmLock
    return success
  else return true

/-! ### Page directories -/

/-- A page table is made when the page directory entry is not present. -/
def pageTable : Code Bool := do
  if ← test then smemalign else test

def mapNewFrame : Code Bool := do
  if ← pageTable then allocFrame else return false

def mapZeroFrame : Code Bool := pageTable

def setAvailability : Code Bool := pageTable

def unmapFrame : Code Bool := do
  -- the page is mapped
  if ← test then do
    let _ ← freeFrame
    return true
  else return false

/-- The page tables of `construct_page_dir`; those made are freed when one cannot be. -/
def pageTables : Nat → Code Bool
  | 0 => return true
  | n + 1 => do
      if ← smemalign then pageTables n
      else do
        loop sfree
        sfree
        return false

def constructPageDir : Code Bool := do
  if ← smemalign then pageTables (← ask) else return false

def freePage : Code Unit := do
  let _ ← freeFrame

def destructPageDir : Code Unit := do
  loop do
    loop freePage
    sfree
  sfree

/-! ### Faults -/

def handleVanish : Code Unit := do
  let p ← self
  mutexLock (pcb p)
  -- only the wake-up of a waiting parent depends on the count
  let _ ← aliveCount p
  mutexUnlock (pcb p)
  terminate

def faultKillThread : Code Unit := do
  fatal
  let p ← self
  mutexLock (pcb p)
  let _ ← aliveCount p
  mutexUnlock (pcb p)
  handleVanish

/-- What `handle_page_fault` does under the lock, and whether the page is mapped now. -/
def repair : Code Bool := do
  if ← test then do
    -- not present, and available
    if ← test then mapZeroFrame else mapNewFrame
  else do
    -- mapped to the zero frame
    if ← test then do
      if ← unmapFrame then mapNewFrame else return false
    else return false

def handlePageFault : Code Unit := do
  let p ← self
  mutexLock (pcb p)
  let mapped ← repair
  mutexUnlock (pcb p)
  if mapped then pure () else faultKillThread

/-- `handle_hv_exit` with the status of a crash. -/
def crashGuest : Code Unit := handleVanish

/-- `handle`, for a page fault of the kernel at a user address. -/
def handleKernelFault : Code Unit := do
  -- the process is a guest
  if ← test then do
    fatal
    crashGuest
  else do
    -- `exception_stack` is set
    if ← test then deliver else handlePageFault

def touchOnce : Code Unit := do
  if ← access then handleKernelFault else pure ()

/-- The kernel reads or writes user memory; an access that has faulted is made again. -/
def touch : Code Unit := loop touchOnce

/-- `handle`, for a fault in the user code of a process that is not a guest. -/
def handleFault : Code Unit := do
  -- one of the faults that a user handler may take
  if ← test then deliver
  else do
    if ← test then handlePageFault else faultKillThread

/-! ### Control blocks -/

def newTid : Code Unit := do
  mutexLock threadManagerLock
  mutexUnlock threadManagerLock

def threadForkCtrlBlk (p : Nat) : Code Unit := do
  if ← malloc then do
    newTid
    if ← malloc then ready p else free
  else pure ()

/-- `POP_BACK` of the new PCB, and what else a `fork_ctrl_blk` that fails gives back. -/
def undoFork (p : Nat) : Code Unit := do
  loop free
  popBack p
  free
  loop free
  destructPageDir

/-- The copy of one user page, or of the availability of a whole page table. -/
def copyPage : Code Bool := do
  if ← test then setAvailability
  else do
    if ← setAvailability then do
      if ← test then mapZeroFrame else mapNewFrame
    else return false

def copyPages : Nat → Code Bool
  | 0 => return true
  | n + 1 => do
      if ← copyPage then copyPages n else return false

/-- The copy of `page_allocation_list`. -/
def copyAllocations : Nat → Code Bool
  | 0 => return true
  | n + 1 => do
      if ← malloc then copyAllocations n else return false

def copyTcb (p child : Nat) : Code Unit := do
  if ← malloc then do
    newTid
    if ← malloc then ready child else undoFork p
  else undoFork p

def copyPcb (p : Nat) : Code Unit := do
  let child ← pushBack p
  if ← copyPages (← ask) then do
    -- the buffer for the copies
    free
    if ← copyAllocations (← ask) then copyTcb p child else undoFork p
  else undoFork p

def forkCtrlBlk (p : Nat) : Code Unit := do
  if ← constructPageDir then do
    if ← malloc then do
      if ← malloc then copyPcb p
      else do
        free
        destructPageDir
    else destructPageDir
  else pure ()

def findExitedChild : List Nat → Code (Option Nat)
  | [] => return none
  | c :: rest => do
      mutexLock (pcb c)
      let alive ← aliveCount c
      if alive = 0 then return some c else findExitedChild rest

/-- The children are unlocked up to `node`, or all of them. -/
def unlockChildren (node : Option Nat) : List Nat → Code Unit
  | [] => pure ()
  | c :: rest => do
      mutexUnlock (pcb c)
      if node = some c then pure () else unlockChildren node rest

/-! ### System calls -/

def handleFork : Code Unit := do
  let p ← self
  mutexLock (pcb p)
  let alive ← aliveCount p
  mutexUnlock (pcb p)
  if alive = 1 then forkCtrlBlk p else pure ()

/-- What `load_executable` does in any one place: it takes no mutex of its own. -/
def loadStep : Code Unit := do
  if ← test then touch
  else do
    if ← test then do
      let _ ← malloc
    else do
      if ← test then free
      else do
        if ← test then do
          let _ ← mapNewFrame
        else do
          if ← test then do
            let _ ← setAvailability
          else destructPageDir

def loadExecutable : Code Unit := do
  touch
  if ← constructPageDir then loop loadStep else pure ()

def handleExec : Code Unit := do
  let p ← self
  mutexLock (pcb p)
  let alive ← aliveCount p
  mutexUnlock (pcb p)
  if alive = 1 then do
    touch
    loadExecutable
  else pure ()

def handleDeschedule : Code Unit := do
  let p ← self
  -- the pointer is readable
  if ← test then do
    mutexLock (pcb p)
    touch
    mutexUnlock (pcb p)
  else pure ()

/-- The loop of `handle_wait`, which goes round as often as the thread blocks: the child that
has exited, if there is one. -/
def waitLoop (p : Nat) : Nat → Code (Option Nat)
  | 0 => never
  | n + 1 => do
      let children ← childPcbList p
      if children = [] then return none
      else do
        let found ← findExitedChild children
        unlockChildren found (← childPcbList p)
        if found.isSome then return found
        else do
          mutexUnlock (pcb p)
          mutexLock (pcb p)
          waitLoop p n

/-- The orphans of `c` go to `init`. -/
def handOver (p c : Nat) : Code Unit := do
  if p = init then splice p c
  else do
    mutexLock (pcb init)
    splice p c
    mutexUnlock (pcb init)

/-- What `handle_wait` frees, and the store of the status word. -/
def reap : Code Unit := do
  loop free
  touch
  destructPageDir
  loop free

def handleWait : Code Unit := do
  -- the status pointer is writable or null
  if ← test then do
    let p ← self
    mutexLock (pcb p)
    let found ← waitLoop p (← ask)
    found.elim (mutexUnlock (pcb p)) fun c => do
      detach p c
      handOver p c
      mutexUnlock (pcb p)
      reap
  else pure ()

def handleTaskVanish : Code Unit := do
  let p ← self
  mutexLock (pcb p)
  terminateSiblings
  mutexUnlock (pcb p)
  handleVanish

/-- A region of the console lock that touches user memory. -/
def printRegion : Code Unit := do
  mutexLock outputLock
  touch
  mutexUnlock outputLock

/-- A region of the console lock that does not. -/
def consoleRegion : Code Unit := do
  mutexLock outputLock
  mutexUnlock outputLock

def handlePrint : Code Unit := do
  touch
  if ← test then printRegion else pure ()

/-- The wait for one character: the first reader blocks while there is none. -/
def awaitChar (p : Nat) : Code Unit := do
  loop do
    mutexLock (pcb p)
    mutexUnlock (pcb p)
  mutexLock (pcb p)
  mutexUnlock (pcb p)

def readChar (p : Nat) : Code Unit := do
  awaitChar p
  consoleRegion

/-- A reader that does not get `inputLock` waits for the reader before, which lets the lock
go and switches to it; it does not look at the result of its second attempt. -/
def enterReadline (p : Nat) : Code Unit := do
  mutexLock (pcb p)
  if ← mutexTryLock inputLock then mutexUnlock (pcb p)
  else do
    mutexUnlock (pcb p)
    let _ ← mutexTryLock inputLock

def handleReadline : Code Unit := do
  touch
  -- the arguments are accepted, and the length is not 0
  if ← test then do
    let p ← self
    enterReadline p
    -- `ch_buf` is empty
    onlyIf (← test) (loop (readChar p))
    touch
    mutexUnlock inputLock
  else pure ()

def unmapPage : Code Unit := do
  let _ ← unmapFrame
  let _ ← setAvailability

def unmapPages : Code Unit := loop unmapPage

def mapPages : Nat → Code Bool
  | 0 => return true
  | n + 1 => do
      if ← setAvailability then do
        if ← mapNewFrame then mapPages n
        else do
          let _ ← setAvailability
          unmapPages
          return false
      else do
        unmapPages
        return false

/-- `handle_new_pages` under the lock: the arguments, the pages and the record. -/
def newPages : Code Unit := do
  touch
  -- the base and the length are accepted
  if ← test then do
    if ← mapPages (← ask) then do
      if ← malloc then pure () else unmapPages
    else pure ()
  else pure ()

def handleNewPages : Code Unit := do
  let p ← self
  mutexLock (pcb p)
  newPages
  mutexUnlock (pcb p)

/-- `handle_remove_pages` under the lock. -/
def removePages : Code Unit := do
  -- the allocation is found
  if ← test then do
    free
    unmapPages
  else pure ()

def handleRemovePages : Code Unit := do
  let p ← self
  mutexLock (pcb p)
  removePages
  mutexUnlock (pcb p)

/-- A call that looks only at user memory: `swexn`, `readfile`. -/
def handleTouch : Code Unit := touch

def handleSleep : Code Unit := do
  let p ← self
  if ← test then do
    mutexLock (pcb p)
    mutexUnlock (pcb p)
  else pure ()

def handleThreadFork : Code Unit := do
  let p ← self
  mutexLock (pcb p)
  threadForkCtrlBlk p
  mutexUnlock (pcb p)

def handleSetTermColor : Code Unit := consoleRegion

def handleSetCursorPos : Code Unit := do
  touch
  consoleRegion

def handleGetCursorPos : Code Unit := do
  touch
  if ← test then printRegion else pure ()

/-! ### Guests -/

def handleHvPrint : Code Unit := do
  touch
  if ← test then printRegion else crashGuest

def handleHvConsSetTermColor : Code Unit := do
  touch
  consoleRegion
  if ← test then pure () else crashGuest

def handleHvConsSetCursorPos : Code Unit := do
  touch
  consoleRegion
  if ← test then pure () else crashGuest

def handleHvConsGetCursorPos : Code Unit := do
  touch
  if ← test then printRegion else crashGuest

def handleHvPrintAt : Code Unit := do
  touch
  if ← test then do
    mutexLock outputLock
    -- the cursor and the colour are accepted
    let success ← test
    onlyIf success touch
    mutexUnlock outputLock
    if success then pure () else crashGuest
  else crashGuest

/-- A hypervisor call without a mutex, or the delivery of an interrupt to the guest. -/
def handleVirtualInterrupt : Code Unit := do
  touch
  if ← test then pure () else crashGuest

def handleHvExit : Code Unit := do
  touch
  handleVanish

/-! ### Calls -/

/-- What makes a thread enter the kernel from user code. -/
inductive Call where
  /-- `gettid`, `halt`, `make_runnable`, `yield`, `set_status`, `getchar`, `get_ticks`,
  `new_console`, the timer and the keyboard: no mutex and no user memory. -/
  | plain
  | fork
  | exec
  | wait
  | vanish
  | taskVanish
  | deschedule
  | print
  | readline
  | newPages
  | removePages
  | swexn
  | readfile
  | sleep
  | threadFork
  | setTermColor
  | setCursorPos
  | getCursorPos
  | fault
  | hvPrint
  | hvConsSetTermColor
  | hvConsSetCursorPos
  | hvConsGetCursorPos
  | hvPrintAt
  | hvExit
  | virtualInterrupt
deriving DecidableEq

def handler : Call → Code Unit
  | .plain => pure ()
  | .fork => handleFork
  | .exec => handleExec
  | .wait => handleWait
  | .vanish => handleVanish
  | .taskVanish => handleTaskVanish
  | .deschedule => handleDeschedule
  | .print => handlePrint
  | .readline => handleReadline
  | .newPages => handleNewPages
  | .removePages => handleRemovePages
  | .swexn => handleTouch
  | .readfile => handleTouch
  | .sleep => handleSleep
  | .threadFork => handleThreadFork
  | .setTermColor => handleSetTermColor
  | .setCursorPos => handleSetCursorPos
  | .getCursorPos => handleGetCursorPos
  | .fault => handleFault
  | .hvPrint => handleHvPrint
  | .hvConsSetTermColor => handleHvConsSetTermColor
  | .hvConsSetCursorPos => handleHvConsSetCursorPos
  | .hvConsGetCursorPos => handleHvConsGetCursorPos
  | .hvPrintAt => handleHvPrintAt
  | .hvExit => handleHvExit
  | .virtualInterrupt => handleVirtualInterrupt

/-- The program of a call. -/
def program (call : Call) : Prog Act Answer Unit := do
  let _ ← (handler call).run
  return ()

/-! ### Runs -/

abbrev Config := Sys.Config State Nat Act Answer

/-- The thread does not spin on a mutex that is taken. -/
def proceeds (c : Config) (t : Nat) : Bool :=
  match c.todo t with
  | .ret () => true
  | .act a _ => c.state.proceeds a

/-- A thread in user code makes the call, and the threads of the root make none. -/
def advance (c : Config) (i : Nat × Call) : Config :=
  if c.state.alive i.1 && c.state.proc i.1 != root then
    match c.todo i.1 with
    | .ret () => { c with todo := Function.update c.todo i.1 (program i.2) }
    | .act a k =>
        let out := exec i.1 a c.state
        ⟨out.1, fun t => if t = i.1 then k out.2
          else if (out.1.alive t && out.1.proc t != root) &&
              !(c.state.alive t && c.state.proc t != root) then .ret ()
          else c.todo t⟩
  else c

/-- One step of a thread. -/
def step (c : Config) (i : Nat × Call) : Config := if proceeds c i.1 then advance c i else c

/-- The root with thread 0 and its child `init` with thread 1. -/
def boot (oracle : Nat → Nat) : Config where
  state :=
    { threadCount := 2
      procCount := 2
      proc := fun t => t
      alive := fun t => t < 2
      children := fun p => if p = root then [init] else []
      gone := fun _ => false
      owner := fun _ => none
      spins := fun _ => none
      oracle := oracle }
  todo := fun _ => .ret ()

end OsKernel.Locks
