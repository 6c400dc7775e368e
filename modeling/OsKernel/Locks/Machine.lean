/-
The mutexes of the kernel (`kern/mutex.c`) and the threads that take them.

A handler is a program over the actions below. An action is one loop turn of a mutex
call, one access to user memory, or one edit of the control blocks that the source makes
under a lock or with interrupts disabled. Between two actions any other thread may run:
the processor may be taken from a thread wherever interrupts are enabled, and who runs
next is left open, so a blocked thread is one whose turn has not come.

What neither the mutexes nor the process tree decide (how a test comes out, whether an
allocation succeeds, how often a loop goes round, whether an access faults) is read from
`oracle`.

Processes are numbered in the order they were made: 0 is the root, which runs `idle`
and makes no call, 1 is `init`. `gone` is bookkeeping: the processes that were taken out
of the list of their parent.
-/

import OsKernel.Lib.Prog

namespace OsKernel.Locks

def root : Nat := 0

/-- The first child of the root. -/
def init : Nat := 1

inductive Mutex where
  | inputLock
  | outputLock
  /-- `lock` in the PCB of process `p`. -/
  | pcb (p : Nat)
  | vmLock
  | threadManagerLock
  | memAllocationLock
deriving DecidableEq

structure State where
  threadCount : Nat
  procCount : Nat
  proc : Nat → Nat
  /-- Not in `TERMINATED_STATE`. -/
  alive : Nat → Bool
  /-- `child_pcb_list`, from its head. -/
  children : Nat → List Nat
  gone : Nat → Bool
  /-- The thread whose `xchange` has found the mutex unlocked, until the mutex is unlocked. -/
  owner : Mutex → Option Nat
  /-- The mutex in whose `mutex_lock` a thread is. -/
  spins : Nat → Option Mutex
  oracle : Nat → Nat

namespace State

/-- `get_thread_alive_count` -/
def aliveCount (s : State) (p : Nat) : Nat :=
  ((List.range s.threadCount).filter fun t => s.alive t && s.proc t = p).length

/-- The thread holds no mutex. -/
def HoldsNone (s : State) (t : Nat) : Prop := ∀ m, s.owner m ≠ some t

/-- Thread `t` spins in `mutex_lock` on a mutex that thread `u` holds. -/
def Waits (s : State) (t u : Nat) : Prop :=
  s.alive t = true ∧ ∃ m, s.spins t = some m ∧ s.owner m = some u

end State

inductive Act where
  /-- The process of the running thread. -/
  | self
  /-- What the oracle says. -/
  | ask
  /-- An access to user memory by the kernel, and whether it faults. -/
  | access
  /-- `wrap_user_provided_handler`: the thread goes on in user code and never comes back. -/
  | deliver
  /-- A fault is about to kill the thread. -/
  | fatal
  /-- The call of `mutex_lock`. -/
  | call (m : Mutex)
  /-- The `xchange` that finds the mutex unlocked. -/
  | take (m : Mutex)
  | tryLock (m : Mutex)
  | unlock (m : Mutex)
  | aliveCount (p : Nat)
  | childPcbList (p : Nat)
  /-- `PUSH_BACK` of a new PCB on the list of `p`. -/
  | pushBack (p : Nat)
  /-- `POP_BACK` on the list of `p`. -/
  | popBack (p : Nat)
  /-- A new thread of process `p` enters the `READY` list. -/
  | ready (p : Nat)
  /-- Child `c` is taken out of the list of `p`. -/
  | detach (p c : Nat)
  /-- The orphans of `c` are appended to the list of `init`, for a caller of process `p`. -/
  | splice (p c : Nat)
  /-- `handle_task_vanish` terminates the siblings. -/
  | terminateSiblings
  /-- The thread switches away and is terminated. -/
  | terminate
  /-- The thread never gets its turn again. -/
  | never
deriving DecidableEq

def Answer : Act → Type
  | .self | .ask | .aliveCount _ | .pushBack _ => Nat
  | .access | .tryLock _ => Bool
  | .childPcbList _ => List Nat
  | _ => Unit

/-! ### What the actions do -/

namespace State

def shift (s : State) : State := { s with oracle := fun i => s.oracle (i + 1) }

def call (s : State) (t : Nat) (m : Mutex) : State :=
  { s with spins := Function.update s.spins t (some m) }

def take (s : State) (t : Nat) (m : Mutex) : State :=
  { s with owner := Function.update s.owner m (some t), spins := Function.update s.spins t none }

def hold (s : State) (t : Nat) (m : Mutex) : State :=
  { s with owner := Function.update s.owner m (some t) }

def unlock (s : State) (m : Mutex) : State :=
  { s with owner := Function.update s.owner m none }

def pushBack (s : State) (p : Nat) : State :=
  { s with procCount := s.procCount + 1
           children := Function.update (Function.update s.children p (s.children p ++ [s.procCount]))
             s.procCount [] }

def popBack (s : State) (p : Nat) : State :=
  { s with children := Function.update s.children p (s.children p).dropLast }

def ready (s : State) (p : Nat) : State :=
  { s with threadCount := s.threadCount + 1
           proc := Function.update s.proc s.threadCount p
           alive := Function.update s.alive s.threadCount true }

def detach (s : State) (p c : Nat) : State :=
  { s with children := Function.update s.children p ((s.children p).erase c)
           gone := Function.update s.gone c true }

/-- Where `init` has no child, the source assigns the list to the caller. The list of `c` is
not read again. -/
def splice (s : State) (p c : Nat) : State :=
  let heir := if s.children init = [] then p else init
  { s with children := Function.update
             (if s.children c = [] then s.children
              else Function.update s.children heir (s.children init ++ s.children c)) c [] }

def terminateSiblings (s : State) (t : Nat) : State :=
  { s with alive := fun u => s.alive u && (u = t || s.proc u ≠ s.proc t) }

def terminate (s : State) (t : Nat) : State := { s with alive := Function.update s.alive t false }

end State

def exec (t : Nat) : (a : Act) → State → State × Answer a
  | .self, s => (s, s.proc t)
  | .ask, s => (s.shift, s.oracle 0)
  | .access, s => (s.shift, decide (s.oracle 0 ≠ 0))
  | .deliver, s => (s, ())
  | .fatal, s => (s, ())
  | .call m, s => (s.call t m, ())
  | .take m, s => (s.take t m, ())
  | .tryLock m, s => if s.owner m = none then (s.hold t m, true) else (s, false)
  | .unlock m, s => (s.unlock m, ())
  | .aliveCount p, s => (s, s.aliveCount p)
  | .childPcbList p, s => (s, s.children p)
  | .pushBack p, s => (s.pushBack p, s.procCount)
  | .popBack p, s => (s.popBack p, ())
  | .ready p, s => (s.ready p, ())
  | .detach p c, s => (s.detach p c, ())
  | .splice p c, s => (s.splice p c, ())
  | .terminateSiblings, s => (s.terminateSiblings t, ())
  | .terminate, s => (s.terminate t, ())
  | .never, s => (s, ())

/-- A thread whose `xchange` finds the mutex locked yields and tries again. -/
def State.proceeds (s : State) : Act → Bool
  | .take m => s.owner m = none
  | .never => false
  | _ => true

/-! ### Programs -/

/-- A piece of a handler. It ends early where the thread goes on in a handler of its own. -/
abbrev Code := OptionT (Prog Act Answer)

def act (a : Act) : Code (Answer a) := OptionT.lift (Prog.perform a)

def self : Code Nat := act .self

def ask : Code Nat := act .ask

def access : Code Bool := act .access

def aliveCount (p : Nat) : Code Nat := act (.aliveCount p)

def childPcbList (p : Nat) : Code (List Nat) := act (.childPcbList p)

def pushBack (p : Nat) : Code Nat := act (.pushBack p)

def popBack (p : Nat) : Code Unit := act (.popBack p)

def ready (p : Nat) : Code Unit := act (.ready p)

def detach (p c : Nat) : Code Unit := act (.detach p c)

def splice (p c : Nat) : Code Unit := act (.splice p c)

def terminateSiblings : Code Unit := act .terminateSiblings

def terminate : Code Unit := act .terminate

def fatal : Code Unit := act .fatal

/-- The thread leaves the kernel for its own handler. -/
def deliver : Code Unit := do
  act .deliver
  failure

/-- The thread is blocked for good. -/
def never {α : Type} : Code α := do
  act .never
  failure

/-- A test of something the mutexes do not depend on. -/
def test : Code Bool := do return (← ask) ≠ 0

/-- A branch without an alternative. -/
def onlyIf (b : Bool) (body : Code Unit) : Code Unit := if b then body else pure ()

def rounds (body : Code Unit) : Nat → Code Unit
  | 0 => pure ()
  | n + 1 => do
      body
      rounds body n

/-- A loop that goes round any number of times. -/
def loop (body : Code Unit) : Code Unit := do rounds body (← ask)

def mutexLock (m : Mutex) : Code Unit := do
  act (.call m)
  act (.take m)

def mutexTryLock (m : Mutex) : Code Bool := act (.tryLock m)

def mutexUnlock (m : Mutex) : Code Unit := act (.unlock m)

end OsKernel.Locks
