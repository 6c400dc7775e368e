/-
`handle_wait`, `handle_vanish` and `handle_task_vanish` (`kern/system_call.c`) step
by step, by any number of threads.

A thread that is alive and not blocked may take its next step at any time: the
processor may be taken from it wherever interrupts are enabled, and who runs next
is left open. What the source does with interrupts disabled is one step, and so is
each access to a list under the lock that protects it. `Pc` is where in a handler a
thread stands and what its local variables hold.

Processes are numbered in the order they were made: 0 is the root, which runs
`idle` and makes no call, 1 is `init`. `gone` is bookkeeping: the processes that
were taken out of the list of their parent.
-/

import OsKernel.Lib.Run
import Mathlib.Logic.Function.Basic
import Mathlib.Tactic.Common

namespace OsKernel.Exit

def root : Nat := 0

/-- The first child of the root. -/
def init : Nat := 1

inductive Pc where
  | user
  /-- `handle_wait`, at the lock of its own PCB; also where a blocked thread stands. -/
  | waitLock
  | waitCheck
  /-- `find_exited_child`: the children locked so far and those to come. -/
  | scan (locked rest : List Nat)
  | count (locked : List Nat) (c : Nat) (rest : List Nat)
  /-- `unlock_children` after child `c` was found. -/
  | unlockFound (todo : List Nat) (c : Nat)
  | detach (c : Nat)
  | lockInit (c : Nat)
  | splice (c : Nat)
  /-- The loop over the parent pointers of the orphans. -/
  | reparent (todo : List Nat)
  | unlockInit
  | unlockOwn
  /-- The frees, and the store of the status word, which may fault. -/
  | free
  | wake
  | vanishLock
  | vanishCount
  | vanishAct (alive : Nat)
  | killLock
  | kill
  | killUnlock
deriving DecidableEq

structure State where
  threadCount : Nat
  procCount : Nat
  proc : Nat → Nat
  /-- Not in `TERMINATED_STATE`. -/
  alive : Nat → Bool
  /-- `thread_lists[VANISH_WAIT]`, from its head. -/
  waiting : List Nat
  pc : Nat → Pc
  children : Nat → List Nat
  parent : Nat → Nat
  lock : Nat → Option Nat
  gone : Nat → Bool

/-- What a thread outside these handlers does next, and whether the store of a status
word ends in a fault that kills the thread. A fault that kills a thread elsewhere is
`vanish`: `fault_kill_thread` ends in `handle_vanish`. -/
inductive Choice where
  | wait
  | vanish
  | taskVanish
  | fork
  | threadFork
  | fault
deriving DecidableEq

namespace State

/-- `get_thread_alive_count` -/
def aliveCount (s : State) (p : Nat) : Nat :=
  ((List.range s.threadCount).filter fun t => s.alive t && s.proc t = p).length

def goto (s : State) (t : Nat) (pc : Pc) : State := { s with pc := Function.update s.pc t pc }

/-- One turn of the loop of `mutex_lock`: with the mutex the thread goes on. -/
def acquire (s : State) (t l : Nat) (pc : Pc) : State :=
  if s.lock l = none then State.goto { s with lock := Function.update s.lock l (some t) } t pc else s

def release (s : State) (l : Nat) : State := { s with lock := Function.update s.lock l none }

/-- `find_tcb_in_list` in the `VANISH_WAIT` list, and `alter_state` to `READY_STATE`. -/
def wakeOne (s : State) (p : Nat) : State :=
  match s.waiting.find? fun u => s.proc u = p with
  | none => s
  | some u => { s with waiting := s.waiting.erase u }

/-- `fork` of a process with one thread. -/
def fork (s : State) (t : Nat) : State :=
  let p := s.proc t
  if s.aliveCount p = 1 then
    { s with threadCount := s.threadCount + 1
             procCount := s.procCount + 1
             proc := Function.update s.proc s.threadCount s.procCount
             alive := Function.update s.alive s.threadCount true
             pc := Function.update s.pc s.threadCount .user
             children := Function.update s.children p (s.children p ++ [s.procCount])
             parent := Function.update s.parent s.procCount p }
  else s

/-- `thread_fork`, under the lock of the PCB. -/
def threadFork (s : State) (t : Nat) : State :=
  if s.lock (s.proc t) = none then
    { s with threadCount := s.threadCount + 1
             proc := Function.update s.proc s.threadCount (s.proc t)
             alive := Function.update s.alive s.threadCount true
             pc := Function.update s.pc s.threadCount .user }
  else s

def call (s : State) (t : Nat) : Choice → State
  | .wait => s.goto t .waitLock
  | .vanish => s.goto t .vanishLock
  | .taskVanish => s.goto t .killLock
  | .fork => s.fork t
  | .threadFork => s.threadFork t
  | .fault => s

/-- With interrupts disabled: the locks are released and the thread blocks. -/
def block (s : State) (t : Nat) (locked : List Nat) : State :=
  { s with waiting := s.waiting ++ [t]
           lock := fun l => if l = s.proc t ∨ l ∈ locked then none else s.lock l
           pc := Function.update s.pc t .waitLock }

def detach (s : State) (t c : Nat) : State :=
  let p := s.proc t
  { s with children := Function.update s.children p ((s.children p).erase c)
           gone := Function.update s.gone c true
           pc := Function.update s.pc t (if p = init then .splice c else .lockInit c) }

/-- The orphans of `c` go to `init`. Where `init` has no child, the source assigns
the list to the caller. The list of `c` is not read again. -/
def splice (s : State) (t c : Nat) : State :=
  let heir := if s.children init = [] then s.proc t else init
  let orphans := s.children c
  { s with children := Function.update
             (if orphans = [] then s.children
              else Function.update s.children heir (s.children init ++ orphans)) c []
           pc := Function.update s.pc t (.reparent orphans) }

/-- The last step of `handle_wait`, with interrupts disabled. -/
def wake (s : State) (t : Nat) : State := ((s.wakeOne (s.proc t)).wakeOne init).goto t .user

/-- The last step of `handle_vanish`, with interrupts disabled. -/
def vanishAct (s : State) (t alive : Nat) : State :=
  let p := s.proc t
  let s := if alive = 1 then s.wakeOne (s.parent p) else s
  { s with lock := Function.update s.lock p none
           alive := Function.update s.alive t false }

/-- `handle_task_vanish` terminates the siblings, with interrupts disabled. -/
def kill (s : State) (t : Nat) : State :=
  { s with alive := fun u => s.alive u && (u = t || s.proc u ≠ s.proc t)
           waiting := s.waiting.filter fun u => s.proc u ≠ s.proc t
           pc := Function.update s.pc t .killUnlock }

/-- The next step of a thread. -/
def next (s : State) (t : Nat) (choice : Choice) : State :=
  let p := s.proc t
  match s.pc t with
  | .user => if p = root then s else s.call t choice
  | .waitLock => s.acquire t p .waitCheck
  | .waitCheck =>
      if s.children p = [] then (s.release p).goto t .user else s.goto t (.scan [] (s.children p))
  | .scan locked [] => s.block t locked
  | .scan locked (c :: rest) => s.acquire t c (.count locked c rest)
  | .count locked c rest =>
      if s.aliveCount c = 0 then s.goto t (.unlockFound (locked ++ [c]) c)
      else s.goto t (.scan (locked ++ [c]) rest)
  | .unlockFound [] c => s.goto t (.detach c)
  | .unlockFound (x :: todo) c => (s.release x).goto t (.unlockFound todo c)
  | .detach c => s.detach t c
  | .lockInit c => s.acquire t init (.splice c)
  | .splice c => s.splice t c
  | .reparent [] => s.goto t (if p = init then .unlockOwn else .unlockInit)
  | .reparent (x :: todo) =>
      State.goto { s with parent := Function.update s.parent x init } t (.reparent todo)
  | .unlockInit => (s.release init).goto t .unlockOwn
  | .unlockOwn => (s.release p).goto t .free
  | .free => s.goto t (if choice = .fault then .vanishLock else .wake)
  | .wake => s.wake t
  | .vanishLock => s.acquire t p .vanishCount
  | .vanishCount => s.goto t (.vanishAct (s.aliveCount p))
  | .vanishAct alive => s.vanishAct t alive
  | .killLock => s.acquire t p .kill
  | .kill => s.kill t
  | .killUnlock => (s.release p).goto t .vanishLock

/-- Alive, and neither blocked nor terminated: `READY` or `RUNNING`. -/
def Runnable (s : State) (t : Nat) : Prop := s.alive t = true ∧ t ∉ s.waiting

instance (s : State) (t : Nat) : Decidable (s.Runnable t) := inferInstanceAs (Decidable (_ ∧ _))

end State

/-- One thread takes a step. -/
def step (s : State) (i : Nat × Choice) : State := if s.Runnable i.1 then s.next i.1 i.2 else s

/-- The root with thread 0 and its child `init` with thread 1. -/
def boot : State where
  threadCount := 2
  procCount := 2
  proc t := t
  alive t := t < 2
  waiting := []
  pc _ := .user
  children p := if p = root then [init] else []
  parent _ := root
  lock _ := none
  gone _ := false

/-- Inside `handle_wait`. -/
def Pc.inWait : Pc → Bool
  | .waitLock | .waitCheck | .scan .. | .count .. | .unlockFound .. | .detach _ | .lockInit _
  | .splice _ | .reparent _ | .unlockInit | .unlockOwn | .free | .wake => true
  | _ => false

/-- Inside `handle_wait`, after the child was taken out and before the last step. -/
def Pc.pastReap : Pc → Bool
  | .lockInit _ | .splice _ | .reparent _ | .unlockInit | .unlockOwn | .free | .wake => true
  | _ => false

end OsKernel.Exit
