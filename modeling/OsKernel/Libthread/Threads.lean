/-
The threads of the thread library (`user/libthread/thread.c`) under preemption.

Everything that a call does while it holds `thread_info_chain_mutex` is one step. A
thread that waits on a condition variable takes the mutex again in a step of its own, at
any time: it looks at `has_exited` again. Between the unlocking in `thr_exit` and the
system call `vanish` a thread runs on.

A thread is known by its `thread_info`, in the order of creation, and so is the node of the
record; the root thread is 0. What `malloc`, `append_node` and `thread_fork` find is an
input; the kernel never gives a thread number twice. A thread whose record could not be
put into the chain crashes before it runs its function. What others do while somebody is
already on the way to `task_vanish` is left out. `joins`, `stackFrees` and
`nodeFrees` are bookkeeping: what the joins that returned 0 reported, and whose
`stack_space` and whose node were given to `free`, in order.
-/

import OsKernel.Lib.Run
import Mathlib.Data.List.Nodup
import Mathlib.Logic.Function.Basic
import Mathlib.Tactic.Common

namespace OsKernel.Libthread

abbrev Thread := Nat

abbrev Addr := Nat

abbrev Status := BitVec 32

/-- The root thread. -/
def root : Thread := 0

/-- `thread_info` -/
structure ThreadInfo where
  tid : Int
  stackSpace : Addr
  isJoinedOn : Bool
  hasExited : Bool
  status : Status
deriving DecidableEq

structure State where
  /-- `thread_info_chain`, from the head on. -/
  chain : List Thread
  info : Thread → ThreadInfo
  /-- How many records there have been. -/
  count : Nat
  /-- The thread that a caller of `thr_join` waits for. -/
  waits : Thread → Option Thread
  /-- The thread has entered `vanish`. -/
  vanished : Thread → Bool
  /-- Somebody is on the way to `task_vanish`. -/
  ending : Bool
  /-- The stacks that are out. -/
  stacksOut : List Addr
  /-- What each thread gave to `thr_exit`. -/
  passed : Thread → Option Status
  joins : List (Thread × Status)
  stackFrees : List Thread
  nodeFrees : List Thread

/-- After `thr_init`, which gives the root thread no stack space. -/
def State.init (tid : Int) : State where
  chain := [root]
  info _ := ⟨tid, 0, false, false, 0⟩
  count := 1
  waits _ := none
  vanished _ := false
  ending := false
  stacksOut := []
  passed _ := none
  joins := []
  stackFrees := []
  nodeFrees := []

/-- What `thr_create` finds. -/
inductive Creation where
  | noMemory
  /-- The stack, whether `append_node` has a node, and the result of `thread_fork`. -/
  | made (stack : Addr) (node : Bool) (tid : Int)

inductive Input where
  | create (t : Thread) (creation : Creation)
  | join (t : Thread) (tid : Int)
  /-- A caller of `thr_join` takes the mutex again. -/
  | resume (t : Thread)
  | exit (t : Thread) (status : Status)
  | vanish (t : Thread)
  /-- A thread faults, and `handle_thread_crash` runs. -/
  | crash (t : Thread)

namespace State

/-- The thread runs, and may call the library. -/
def able (s : State) (t : Thread) : Bool :=
  t ∈ s.chain ∧ 0 ≤ (s.info t).tid ∧ s.waits t = none ∧ s.vanished t = false ∧ s.ending = false

/-- The thread has not called `thr_exit`. -/
def live (s : State) (t : Thread) : Bool := s.able t && !(s.info t).hasExited

def setInfo (s : State) (t : Thread) (info : ThreadInfo) : State :=
  { s with info := Function.update s.info t info }

def setWaits (s : State) (t : Thread) (u : Option Thread) : State :=
  { s with waits := Function.update s.waits t u }

/-- What `malloc` and `thread_fork` may give. -/
def fresh (s : State) (stack : Addr) (tid : Int) : Bool :=
  stack ≠ 0 ∧ stack ∉ s.stacksOut ∧ (0 ≤ tid → ∀ u < s.count, (s.info u).tid ≠ tid)

/-- `thr_create`, when nothing before `append_node` fails. -/
def create (s : State) (stack : Addr) (node : Bool) (tid : Int) : State :=
  { s.setInfo s.count ⟨tid, stack, false, false, 0⟩ with
    chain := if node then s.chain ++ [s.count] else s.chain
    count := s.count + 1
    stacksOut := stack :: s.stacksOut }

/-- The search in `thr_join`. -/
def find (s : State) (tid : Int) : Option Thread := s.chain.find? fun u => (s.info u).tid = tid

/-- What `thr_join` does with a thread that has exited: the status, the stack, the node. -/
def cleanup (s : State) (u : Thread) : State :=
  { s with
    chain := s.chain.erase u
    stacksOut := s.stacksOut.erase (s.info u).stackSpace
    joins := s.joins ++ [(u, (s.info u).status)]
    stackFrees := s.stackFrees ++ [u]
    nodeFrees := if u ∈ s.chain then s.nodeFrees ++ [u] else s.nodeFrees }

/-- `thr_join`, up to its return or its wait. -/
def join (s : State) (t : Thread) (tid : Int) : State :=
  match s.find tid with
  | none => s
  | some u =>
      if (s.info u).hasExited then s.cleanup u
      else if (s.info u).isJoinedOn then s
      else (s.setInfo u { s.info u with isJoinedOn := true }).setWaits t (some u)

/-- The loop of `thr_join` goes on. -/
def resume (s : State) (t : Thread) : State :=
  match s.waits t with
  | none => s
  | some u =>
      if (s.info u).hasExited then (s.cleanup u).setWaits t none else s

/-- The loop of `destruct_each_thread`, which frees the last stack and removes the node
before the last one. -/
def destructLoop : Nat → State → State
  | 0, s => s
  | n + 1, s => match s.chain.getLast? with
    | none => s
    | some last =>
        let node := s.chain.dropLast.getLast?.getD last
        destructLoop n { s with
          chain := s.chain.erase node
          stacksOut := s.stacksOut.erase (s.info last).stackSpace
          stackFrees := s.stackFrees ++ [last]
          nodeFrees := s.nodeFrees ++ [node] }

/-- `destruct_each_thread`, on the way to `task_vanish`. -/
def destructEachThread (s : State) : State :=
  { destructLoop s.chain.length s with ending := true }

/-- `thread_alive_count` -/
def threadAliveCount (s : State) : Nat := s.chain.countP fun u => !(s.info u).hasExited

/-- The own record, as `thr_exit` finds it. -/
def findLast (s : State) (tid : Int) : Option Thread :=
  (s.chain.filter fun u => (s.info u).tid = tid).getLast?

/-- `thr_exit`, up to its system call. -/
def exit (s : State) (t : Thread) (status : Status) : State :=
  if s.threadAliveCount ≤ 1 then s.destructEachThread
  else match s.findLast (s.info t).tid with
    | none => s
    | some u => { s.setInfo u { s.info u with hasExited := true, status := status } with
        passed := Function.update s.passed t (some status) }

def step (s : State) : Input → State
  | .create t creation => match creation with
    | .noMemory => s
    | .made stack node tid => if s.live t && s.fresh stack tid then s.create stack node tid else s
  | .join t tid => if s.live t then s.join t tid else s
  | .resume t => if s.ending then s else s.resume t
  | .exit t status => if s.live t then s.exit t status else s
  | .vanish t =>
      if (s.info t).hasExited then { s with vanished := Function.update s.vanished t true } else s
  | .crash t => if s.able t then s.destructEachThread else s

/-- What holds before a step, and of each call that may take place, holds after it. -/
theorem step_cases {P : State → Prop} (s : State) (input : Input) (same : P s)
    (create : ∀ t stack node tid, input = .create t (.made stack node tid) →
      s.fresh stack tid = true → P (s.create stack node tid))
    (join : ∀ t tid, input = .join t tid → s.live t = true → P (s.join t tid))
    (resume : ∀ t, input = .resume t → s.ending = false → P (s.resume t))
    (exit : ∀ t status, input = .exit t status → s.live t = true → P (s.exit t status))
    (vanish : ∀ t, P { s with vanished := Function.update s.vanished t true })
    (crash : ∀ t, input = .crash t → s.able t = true → P s.destructEachThread) :
    P (s.step input) := by
  cases input with
  | create t creation =>
      cases creation with
      | noMemory => exact same
      | made stack node tid =>
          unfold State.step
          dsimp only
          split
          · rename_i allowed
            rw [Bool.and_eq_true] at allowed
            exact create t stack node tid rfl allowed.2
          · exact same
  | join t tid =>
      unfold State.step
      dsimp only
      split
      · rename_i runs
        exact join t tid rfl runs
      · exact same
  | resume t =>
      unfold State.step
      dsimp only
      split
      · exact same
      · rename_i goesOn
        exact resume t rfl (Bool.eq_false_iff.mpr goesOn)
  | exit t status =>
      unfold State.step
      dsimp only
      split
      · rename_i runs
        exact exit t status rfl runs
      · exact same
  | vanish t =>
      unfold State.step
      dsimp only
      split
      · exact vanish t
      · exact same
  | crash t =>
      unfold State.step
      dsimp only
      split
      · rename_i runs
        exact crash t rfl runs
      · exact same

section
variable {s : State} {t u v : Thread}

@[simp] theorem setInfo_self (s : State) (u : Thread) (info : ThreadInfo) :
    (s.setInfo u info).info u = info := Function.update_self ..

theorem setInfo_other (other : v ≠ u) (info : ThreadInfo) :
    (s.setInfo u info).info v = s.info v := Function.update_of_ne other ..

@[simp] theorem setWaits_self (s : State) (t : Thread) (u : Option Thread) :
    (s.setWaits t u).waits t = u := Function.update_self ..

theorem setWaits_other (other : v ≠ t) (u : Option Thread) :
    (s.setWaits t u).waits v = s.waits v := Function.update_of_ne other ..

/-- The node before the last one is removed. -/
theorem erase_node {front : List Thread} {node last : Thread}
    (nodup : (front ++ [node] ++ [last]).Nodup) :
    (front ++ [node] ++ [last]).erase node = front ++ [last] := by
  rw [List.append_assoc] at nodup ⊢
  have absent : node ∉ front := fun mem =>
    (List.nodup_append.mp nodup).2.2 node mem node List.mem_cons_self rfl
  rw [List.erase_append_right _ absent, List.singleton_append, List.erase_cons_head]

theorem destructLoop_last (n : Nat) {s : State} {front : List Thread} {last : Thread}
    (chain : s.chain = front ++ [last]) :
    ∃ s' : State, destructLoop (n + 1) s = destructLoop n s' ∧
      s'.chain = s.chain.erase (front.getLast?.getD last) ∧
      s'.stackFrees = s.stackFrees ++ [last] := by
  simp only [State.destructLoop, chain, List.getLast?_concat, List.dropLast_concat]
  exact ⟨_, rfl, rfl, rfl⟩

end

end State

end OsKernel.Libthread
