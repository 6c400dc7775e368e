/-
The lists of threads under all operations that edit them: `fork`, `thread_fork`, `yield`,
`deschedule`, `make_runnable`, `sleep`, `readline`, `wait`, `vanish` and `task_vanish`
(`kern/system_call.c`, `kern/ctrl_blk.c`), the timer and the keyboard.

A step is taken by the thread at the head of the `RUNNING` list: what it does up to the next
point where interrupts are enabled, or one assignment where they stay enabled. What a thread
goes on with, also after it was switched out, is its `Pc`.

The `TERMINATED` list is apart from the others (`drain`), because `handle_wait` empties it
with interrupts enabled; `alter_state` has taken a node out of its list before it writes the
links that the `TERMINATED` list uses. A thread is a TCB, numbered in the order in which they
were made; `address` is where it lies, so two threads may have one address when the TCB of
the first is freed. A node is known by the thread it was made for, as in the model of the
draining loop.

PCBs are numbered as well. A PCB counts as freed from the `POP_BACK` of a fork that fails on,
or from the time when `handle_wait` has detached it. No address is kept for it: as long as the
threads that go on have PCBs that are not freed, none of them finds another PCB in its place.

The lock of a process is taken by its own threads only: a parent that looks at its children
and a thread that hands orphans over only delay them. Other mutexes are left out too. A
thread that waits for one of them yields, which a thread may do at any time here. Which
process is the parent of another is an input.
-/

import OsKernel.Process.Drain
import OsKernel.Sched.Splices

namespace OsKernel.Dispatch

open OsKernel.Sched

/-- The first child of the root. -/
def init : Nat := 1

/-- What is done with the lock of the own process held. -/
inductive Region where
  | deschedule
  | sleep (ticks : BitVec 32)
  | wait
  | vanish
  | taskVanish
  | enterReadline
  | readChar
  | threadFork
  | fork
deriving DecidableEq

/-- Where a thread is, with interrupts enabled. -/
inductive Pc where
  /-- In user code, or in a part of a handler that is left out. -/
  | user
  /-- At `mutex_lock`. -/
  | lock (r : Region)
  | locked (r : Region)
  /-- At `mutex_unlock`. -/
  | unlock (next : Pc)
  /-- `thread_fork_ctrl_blk` has made the TCB `x`. -/
  | made (x : Thread)
  /-- At the `PUSH_BACK` of `fork_ctrl_blk`. -/
  | forks
  /-- The PCB `q` is pushed. -/
  | pushed (q : Nat)
  /-- `child_pcb_ptr` is `c`. -/
  | copying (c : Nat)
  /-- The TCB `x` of process `c` is made. -/
  | forked (c : Nat) (x : Thread)
  /-- `handle_vanish` has counted the threads. -/
  | vanishing (alive : Nat)
  /-- In `switch_context`, as a reader that has found `input_lock` taken. -/
  | blocked
  /-- In `handle_readline`, with `input_lock`. -/
  | read
  /-- `handle_wait` frees the TCBs of the child. -/
  | freeTcbs (l : List Thread)
  /-- `handle_wait` empties the `TERMINATED` list. -/
  | drain
  /-- At the end of `handle_wait`. -/
  | wakes
deriving DecidableEq

namespace Pc

/-- With the lock of the own process. -/
def holds : Pc → Bool
  | locked _ | unlock _ | made _ | vanishing _ => true
  | _ => false

/-- The TCB that the thread sets up. -/
def builds : Pc → Option Thread
  | made x | forked _ x => some x
  | _ => none

/-- The process that the thread sets up. -/
def child : Pc → Option Nat
  | pushed c | copying c | forked c _ => some c
  | _ => none

/-- Without a lock, a new thread or TCBs to be freed. -/
def plain : Pc → Bool
  | user | lock _ | forks | blocked | read | drain | wakes => true
  | _ => false

/-- Between acquiring `input_lock` and releasing it. -/
def inside : Pc → Bool
  | read | lock .readChar | locked .readChar => true
  | unlock next => next.inside
  | _ => false

end Pc

structure State where
  /-- The TCBs, and all lists but the `TERMINATED` one. -/
  live : Rings
  drain : Drain.State
  address : Thread → Nat
  tcbFreed : Thread → Bool
  /-- How many TCBs were ever made. -/
  made : Nat
  /-- How many PCBs were ever made. -/
  procs : Nat
  pcbFreed : Nat → Bool
  tcbList : Nat → List Thread
  /-- `child_pcb_list` -/
  children : Nat → List Nat
  /-- Who holds the `lock` of a PCB. -/
  owner : Nat → Option Thread
  /-- `input_lock` -/
  inputLocked : Bool
  pc : Thread → Pc
  tickCount : BitVec 32

/-- What a thread finds. -/
structure Data where
  /-- How a test or an allocation comes out. -/
  success : Bool
  /-- The parent of the process. -/
  parent : Nat
  /-- Where `malloc` finds room for a TCB. -/
  address : Nat
  /-- The number of a new thread. -/
  tid : Int
deriving DecidableEq

inductive Input where
  /-- The running thread goes on. -/
  | advance (d : Data)
  /-- It enters the kernel by a call. -/
  | call (r : Region)
  /-- It calls `yield`, or waits for a mutex. -/
  | yield (tid : Int)
  | makeRunnable (tid : Int)
  /-- It has touched a page that it may not, and a handler of its own takes over or it is
  killed. -/
  | fault (handled : Bool)
  | timer
  | keyboard
deriving DecidableEq

namespace State

def tcb (s : State) (t : Thread) : Tcb := s.live.tcb t

def goto (s : State) (t : Thread) (pc : Pc) : State := { s with pc := Function.update s.pc t pc }

def acquire (s : State) (t : Thread) : State :=
  { s with owner := Function.update s.owner (s.tcb t).pcb (some t) }

def release (s : State) (t : Thread) : State :=
  { s with owner := Function.update s.owner (s.tcb t).pcb none }

/-! ### `alter_state` and its callers -/

/-- `alter_state` to `TERMINATED_STATE`. A thread that is terminated already is searched for
in the `TERMINATED` list. -/
def terminate (s : State) (t : Thread) : State :=
  if (s.tcb t).state = .terminated then { s with drain := s.drain.terminate t }
  else if (s.tcb t).state = .new ∨
      (s.live.nodes s.made (s.tcb t).listIdx).find? (fun u => u = t) = none then s
  else { s with live := s.live.ended t, drain := s.drain.terminate t }

/-- `alter_state`; no caller looks at what it returns, and none gives a thread that is
terminated another state. -/
def alter (s : State) (t : Thread) (state : ThreadState) (detail : Option BlockingDetail) : State :=
  if state = .terminated then s.terminate t
  else { s with live := (s.live.alterState s.made t state detail).getD s.live }

def running (s : State) : Option Thread := s.live.threadLists (.state .running)

def switchContext (s : State) (target : Thread) (state : ThreadState)
    (detail : Option BlockingDetail) : State :=
  if state = .waiting ∧ detail = none then s
  else match s.running with
    | none => s
    | some original => (s.alter original state detail).alter target .running none

def roundRobin (s : State) : State × Option Thread :=
  let found := s.live.roundRobin s.made
  ({ s with live := found.1 }, found.2)

/-- `find_next_thread`, for thread `t`. -/
def findNextThread (s : State) (t : Thread) : State × Option Thread :=
  match (s.tcbList (s.tcb t).pcb).find? fun u => (s.tcb u).state = .ready with
  | some u => (s, some u)
  | none => s.roundRobin

/-- `find_tcb_in_list`, in the list of runnable threads or of descheduled ones. -/
def findTid (s : State) (tid : Int) (i : ListIdx) : Option Thread :=
  (s.live.nodes s.made i).find? fun u => (s.tcb u).tid = tid

/-- `find_tcb_in_list`, for a thread of process `p` that waits. -/
def findWaiter (s : State) (p : Nat) : Option Thread :=
  (s.live.nodes s.made (.reason .vanishWait)).find? fun u => (s.tcb u).pcb = p

/-- A thread of process `p` that waits becomes runnable. -/
def wake (s : State) (p : Nat) : State :=
  match s.findWaiter p with
  | none => s
  | some u => s.alter u .ready none

/-- The thread lets its lock go and blocks. Without a runnable thread the machine halts. -/
def block (s : State) (t : Thread) (detail : BlockingDetail) (next : Pc) : State :=
  match s.findNextThread t with
  | (_, none) => s
  | (s', some u) => ((s'.release t).switchContext u .waiting (some detail)).goto t next

/-- The thread lets its lock go and ends. -/
def leave (s : State) (t u : Thread) : State :=
  ((s.release t).goto t .user).switchContext u .terminated none

/-! ### Threads and processes -/

/-- `get_thread_alive_count` -/
def aliveCount (s : State) (p : Nat) : Nat :=
  ((s.tcbList p).filter fun u => (s.tcb u).state ≠ .terminated).length

/-- There is no TCB at the address. -/
def room (s : State) (a : Nat) : Bool :=
  (List.range s.made).all fun u => s.tcbFreed u || decide (s.address u ≠ a)

/-- A copy of the TCB of thread `t` for process `p`, with the list of TCBs that it is then in. -/
def make (s : State) (t : Thread) (p : Nat) (d : Data) (l : List Thread) : State :=
  let tcb := { s.tcb t with pcb := p, tid := d.tid, state := .ready }
  { s with
    live := { s.live with tcb := Function.update s.live.tcb s.made tcb }
    address := Function.update s.address s.made d.address
    made := s.made + 1
    tcbList := Function.update s.tcbList p l }

def freeTcb (s : State) (x : Thread) : State :=
  { s with tcbFreed := Function.update s.tcbFreed x true }

/-- `POP_BACK` of the TCB `x` from the list of process `p`. -/
def unmake (s : State) (p : Nat) (x : Thread) : State :=
  { s.freeTcb x with tcbList := Function.update s.tcbList p (s.tcbList p).dropLast }

def pushChild (s : State) (p : Nat) : State :=
  { s with
    procs := s.procs + 1
    children := Function.update s.children p (s.children p ++ [s.procs]) }

def freePcb (s : State) (c : Nat) : State :=
  { s with pcbFreed := Function.update s.pcbFreed c true }

/-- `POP_BACK` of the children of process `p`. -/
def popChild (s : State) (p : Nat) : State :=
  match (s.children p).getLast? with
  | none => s
  | some c => { s.freePcb c with children := Function.update s.children p (s.children p).dropLast }

/-- Child `c` leaves the list of `p`, and its children go to `init`. Where `init` has no
child, the source assigns the list to the caller. Only the caller knows of `c` from now on, up
to the `POP_FRONT` that frees it. -/
def detach (s : State) (p c : Nat) : State :=
  let children := Function.update s.children p ((s.children p).erase c)
  let heir := if children init = [] then p else init
  { s.freePcb c with
    tcbList := Function.update s.tcbList c []
    children := if children c = [] then children
      else Function.update children heir (children init ++ children c) }

/-! ### The regions -/

/-- `handle_wait` looks for a child that has exited. -/
def wait (s : State) (t : Thread) : State :=
  let p := (s.tcb t).pcb
  if s.children p = [] then (s.release t).goto t .user
  else match (s.children p).find? fun c => s.aliveCount c = 0 with
    | some c =>
        -- a child without a TCB: a null pointer is followed
        if s.tcbList c = [] then s
        else ((s.detach p c).release t).goto t (.freeTcbs (s.tcbList c))
    | none => s.block t .vanishWait (.lock .wait)

/-- The last part of `handle_vanish`. -/
def vanish (s : State) (t : Thread) (alive : Nat) (parent : Nat) : State :=
  if alive = 1 then match (s.wake parent).roundRobin with
    | (_, none) => s
    | (s', some u) => s'.leave t u
  else match s.findNextThread t with
    -- `switch_context` does nothing
    | (_, none) => (s.release t).goto t .user
    | (s', some u) => s'.leave t u

/-- `handle_task_vanish` terminates the other threads of the process. -/
def terminateAll (s : State) (t : Thread) : List Thread → State
  | [] => s
  | u :: rest => (if u = t then s else s.alter u .terminated none).terminateAll t rest

/-- What a thread does with the lock of its process. -/
def region (s : State) (t : Thread) (d : Data) : Region → State
  | .deschedule =>
      -- `*reject` is not 0
      if d.success then (s.release t).goto t .user else s.block t .deschedule .user
  | .sleep ticks => s.block t (.sleep (s.tickCount + ticks)) .user
  | .wait => s.wait t
  | .vanish => s.goto t (.vanishing (s.aliveCount (s.tcb t).pcb))
  | .taskVanish =>
      (s.terminateAll t (s.tcbList (s.tcb t).pcb)).goto t (.unlock (.lock .vanish))
  | .enterReadline =>
      if s.inputLocked then s.block t (.readline false) .blocked
      else State.goto { s with inputLocked := true } t (.unlock .read)
  | .readChar =>
      -- `extract_ch` finds a character
      if d.success then s.goto t (.unlock .read) else s.block t (.readline true) (.lock .readChar)
  | .threadFork =>
      let p := (s.tcb t).pcb
      if d.success ∧ s.room d.address = true then
        (s.make t p d (s.tcbList p ++ [s.made])).goto t (.made s.made)
      else s.goto t (.unlock .user)
  | .fork =>
      if s.aliveCount (s.tcb t).pcb = 1 then s.goto t (.unlock .forks) else s.goto t (.unlock .user)

/-- The end of `handle_readline`: the lock goes to the first of the readers. -/
def finish (s : State) (t : Thread) : State :=
  let s' := State.goto { s with inputLocked := false } t .user
  match s.live.threadLists (.reason .readline) with
  | none => s'
  | some h => s'.switchContext h .ready none

/-! ### Steps -/

/-- The next step of thread `t`. -/
def advance (s : State) (t : Thread) (d : Data) : State :=
  let p := (s.tcb t).pcb
  match s.pc t with
  | .user => s
  | .lock r => if s.owner p = none then (s.acquire t).goto t (.locked r) else s
  | .locked r => s.region t d r
  | .unlock next => (s.release t).goto t next
  | .made x =>
      if d.success then State.goto { s with live := s.live.enqueue s.made x } t (.unlock .user)
      else (s.unmake p x).goto t (.unlock .user)
  | .forks => if d.success then (s.pushChild p).goto t (.pushed s.procs) else s.goto t .user
  | .pushed _ =>
      match (s.children p).getLast? with
      | none => s
      | some c => s.goto t (.copying c)
  | .copying c =>
      if d.success ∧ s.room d.address = true then
        (s.make t c d (s.made :: s.tcbList c)).goto t (.forked c s.made)
      else (s.popChild p).goto t .user
  | .forked c x =>
      if d.success then State.goto { s with live := s.live.append x } t .user
      else ((s.unmake c x).popChild p).goto t .user
  | .vanishing alive => s.vanish t alive d.parent
  -- the result of `mutex_try_lock` is ignored
  | .blocked => State.goto { s with inputLocked := true } t .read
  | .read =>
      -- the line is complete, or `ch_buf` was not empty
      if d.success then s.finish t else s.goto t (.lock .readChar)
  | .freeTcbs [] => s.goto t .drain
  | .freeTcbs (x :: rest) => (s.freeTcb x).goto t (.freeTcbs rest)
  | .drain =>
      let s' := { s with drain := Drain.step s.drain (.drain t) }
      if s'.drain.pc t = .out then s'.goto t .wakes else s'
  | .wakes => ((s.wake p).wake init).goto t .user

def yield (s : State) (tid : Int) : State :=
  if tid = -1 then match s.roundRobin with
    | (_, none) => s
    | (s', some u) => s'.switchContext u .ready none
  else match s.findTid tid (.state .ready) with
    | none => s
    | some u => s.switchContext u .ready none

def makeRunnable (s : State) (tid : Int) : State :=
  match s.findTid tid (.reason .deschedule) with
  | none => s
  | some u => s.alter u .ready none

/-- There is a round robin at every tick. -/
def handleTimer (s : State) : State :=
  let s := { s with tickCount := s.tickCount + 1 }
  let sleeper := (s.live.threadLists (.reason .sleep)).filter fun u =>
    decide ((s.tcb u).detail.wakeupTime ≤ s.tickCount)
  match sleeper with
  | some u => s.switchContext u .ready none
  | none => match s.roundRobin with
    | (_, none) => s
    | (s', some u) => s'.switchContext u .ready none

def handleKeyboard (s : State) : State :=
  match s.live.threadLists (.reason .readline) with
  | none => s
  | some h => if (s.tcb h).detail.firstReader then s.switchContext h .ready none else s

/-- The kernel touches user memory here, or the thread is in user code. `handle_deschedule`
reads `*reject` with the lock of the process, which is still taken after the fault. -/
def faults (s : State) (t : Thread) : Bool :=
  s.pc t = .user ∨ s.pc t = .read ∨ s.pc t = .wakes ∨ s.pc t = .locked .deschedule

/-- What comes from outside, for the running thread `t`. -/
def event (s : State) (t : Thread) : Input → State
  | .advance d => s.advance t d
  | .call r => if s.pc t = .user ∧ r ≠ .readChar then s.goto t (.lock r) else s
  | .yield tid => s.yield tid
  | .makeRunnable tid => if s.pc t = .user then s.makeRunnable tid else s
  | .fault handled =>
      if s.faults t then s.goto t (if handled then .user else .lock .vanish) else s
  | .timer => s.handleTimer
  | .keyboard => s.handleKeyboard

end State

/-- A reader that has just been switched to has interrupts disabled up to its
`mutex_try_lock`. -/
def step (s : State) (i : Input) : State :=
  match s.running with
  | none => s
  | some t => match i with
    | .advance d => s.advance t d
    | _ => if s.pc t = .blocked then s else s.event t i

/-- The root runs `idle`, and `init` is runnable. -/
def boot : State where
  live :=
    { tcb := fun t =>
        { pcb := t, tid := t, state := if t = 0 then .running else .ready, detail := .deschedule }
      threadLists := fun i =>
        if i = .state .running then some 0 else if i = .state .ready then some 1 else none
      links := ⟨id, id⟩ }
  drain := Drain.boot
  address := id
  tcbFreed _ := false
  made := 2
  procs := 2
  pcbFreed _ := false
  tcbList p := if p < 2 then [p] else []
  children p := if p = 0 then [init] else []
  owner _ := none
  inputLocked := false
  pc _ := .user
  tickCount := 0

end OsKernel.Dispatch
