/-
The tree of processes: `fork_ctrl_blk` (`kern/ctrl_blk.c`), `handle_wait`,
`handle_vanish` and `handle_task_vanish` (`kern/system_call.c`), with every fork,
every exit and every reap as one step.

A PCB lives in a node of the circular list of its parent's children, so the
address of the node is the address of the PCB. The fields of all nodes are kept
in one function each. A loop over a list follows the links; it has fuel for as
many nodes as were ever made.

The root process runs `idle`, which makes no system call. `serial`, `pid`, `had`,
`returned`, `declared` and `exitStatus` are bookkeeping that no call reads: the
processes in the order they were made, the tid that `fork` returned for each, how
many children each ever had, who was returned to whom, and, by serials, the status
each process last gave in a call and the one it had given when its last thread
ended.
-/

import OsKernel.Lib.Ring
import OsKernel.Lib.Run
import Mathlib.Algebra.Group.Nat.Defs

namespace OsKernel.Process

structure Tcb where
  tid : Nat
  alive : Bool

structure Tree where
  /-- The nodes that are allocated. -/
  live : Nat → Bool
  links : Links Nat
  /-- `parent_pcb_ptr` -/
  parent : Nat → Option Nat
  /-- `child_pcb_list` -/
  children : Nat → Option Nat
  /-- `tcb_list`, from its head. -/
  tcbs : Nat → List Tcb
  status : Nat → Int
  /-- `root_pcb_node_ptr` -/
  root : Nat
  threadCount : Nat
  created : Nat
  serial : Nat → Nat
  pid : Nat → Nat
  had : Nat → Nat
  /-- The serials of the caller and of the child, for every successful `wait`. -/
  returned : List (Nat × Nat)
  /-- The last argument of `set_status` or `task_vanish`. -/
  declared : Nat → Int
  /-- What was `declared` when the last thread of the process ended. -/
  exitStatus : Nat → Option Int

inductive Outcome where
  | failed
  /-- `wait` blocks and will try again. -/
  | blocked
  | returned (tid : Nat) (status : Int)

namespace Tree

/-- The children of a process, as a loop over its list visits them. -/
def childrenOf (s : Tree) (q : Nat) : List Nat :=
  match s.children q with
  | none => []
  | some head => s.links.walk head s.created head

/-- `get_thread_alive_count` -/
def threadAliveCount (s : Tree) (q : Nat) : Nat := ((s.tcbs q).filter (·.alive)).length

/-- The `k`-th thread of a process may call: the process is not the root, which
runs `idle`. -/
def Runs (s : Tree) (p k : Nat) : Prop :=
  s.live p ∧ p ≠ s.root ∧ ((s.tcbs p)[k]?.any (·.alive)) = true

instance (s : Tree) (p k : Nat) : Decidable (s.Runs p k) :=
  inferInstanceAs (Decidable (_ ∧ _ ∧ _))

/-! ### Threads -/

/-- `thread_fork_ctrl_blk` -/
def threadFork (s : Tree) (p : Nat) : Tree :=
  { s with tcbs := Function.update s.tcbs p (s.tcbs p ++ [⟨s.threadCount, true⟩])
           threadCount := (s.threadCount + 1) % 2 ^ 32 }

/-- `handle_vanish` -/
def vanish (s : Tree) (p k : Nat) : Tree :=
  let tcbs := (s.tcbs p).modify k fun tcb => { tcb with alive := false }
  { s with tcbs := Function.update s.tcbs p tcbs }

def setStatus (s : Tree) (p : Nat) (status : Int) : Tree :=
  { s with status := Function.update s.status p status }

/-- `handle_task_vanish`: the other threads are terminated first. -/
def taskVanish (s : Tree) (p k : Nat) (status : Int) : Tree :=
  let tcbs := (s.tcbs p).mapIdx fun i tcb => if i ≠ k then { tcb with alive := false } else tcb
  (Tree.setStatus { s with tcbs := Function.update s.tcbs p tcbs } p status).vanish p k

/-! ### Fork -/

/-- `PUSH_BACK` of a zeroed PCB with its parent. -/
def pushChild (s : Tree) (p addr : Nat) : Tree :=
  { s with live := Function.update s.live addr true
           links := s.links.pushBack (s.children p) addr
           parent := Function.update s.parent addr (some p)
           children := Function.update (Function.update s.children p
             (some ((s.children p).getD addr))) addr none
           tcbs := Function.update s.tcbs addr []
           status := Function.update s.status addr 0 }

/-- `POP_BACK` of the child list, when a later allocation fails. -/
def popChild (s : Tree) (p : Nat) : Tree :=
  match s.children p with
  | none => s
  | some front =>
      let back := s.links.previous front
      { s with live := Function.update s.live back false
               links := s.links.unlink back
               children := if front = back then Function.update s.children p none else s.children }

/-- `handle_fork` with `fork_ctrl_blk`: `addr` is what `malloc` returns for the PCB,
if it does, and `allocated` says whether the allocations after it succeed. -/
def fork (s : Tree) (p : Nat) (addr : Option Nat) (allocated : Bool) : Tree :=
  if s.threadAliveCount p = 1 then
    match addr with
    | none => s
    | some addr =>
        if s.live addr then s
        else
          let s := s.pushChild p addr
          if allocated then
            { s with tcbs := Function.update s.tcbs addr [⟨s.threadCount, true⟩]
                     threadCount := (s.threadCount + 1) % 2 ^ 32
                     created := s.created + 1
                     serial := Function.update s.serial addr s.created
                     pid := Function.update s.pid addr s.threadCount
                     had := Function.update s.had (s.serial p) (s.had (s.serial p) + 1) }
          else s.popChild p
  else s

/-! ### Wait -/

/-- `find_exited_child` -/
def findExitedChild (s : Tree) (p : Nat) : Option Nat :=
  (s.childrenOf p).find? fun c => s.threadAliveCount c = 0

/-- Take the node of a child out of the list of its parent. -/
def detach (s : Tree) (p c : Nat) : Tree :=
  if s.links.next c = c then { s with children := Function.update s.children p none }
  else
    { s with children := if s.children p = some c
               then Function.update s.children p (some (s.links.next c)) else s.children
             links := (s.links.unlink c).single c }

/-- The loop that changes parent pointers, up to a node whose parent is `init`. -/
def reparent (links : Links Nat) (init : Nat) : Nat → Nat → (Nat → Option Nat) → Nat → Option Nat
  | 0, _, parent => parent
  | n + 1, x, parent =>
      if parent x = some init then parent
      else reparent links init n (links.next x) (Function.update parent x (some init))

/-- The children of a child go to `init`. Where `init` has no child, the source
assigns the list to the caller. -/
def handOver (s : Tree) (p c init : Nat) : Tree :=
  match s.children c with
  | none => s
  | some g => match s.children init with
      | none =>
          { s with children := Function.update s.children p (some g)
                   parent := reparent s.links init (s.created + 1) g s.parent }
      | some h =>
          { s with links := s.links.splice h g
                   parent := reparent (s.links.splice h g) init (s.created + 1) g s.parent }

/-- What `wait` does with an exited child: the node is alone when it is freed. -/
def reap (s : Tree) (p c init : Nat) : Tree :=
  let moved := (s.childrenOf c).length
  let s' := (s.detach p c).handOver p c init
  { s' with live := Function.update s'.live c false
            had := Function.update s'.had (s.serial init) (s'.had (s.serial init) + moved)
            returned := s'.returned ++ [(s.serial p, s.serial c)] }

/-- `handle_wait`; `init` is the first child of the root. -/
def wait (s : Tree) (p : Nat) : Tree × Outcome :=
  match s.children p with
  | none => (s, .failed)
  | some _ => match s.findExitedChild p, s.children s.root with
      | some c, some init =>
          (s.reap p c init, .returned (((s.tcbs c).head?.map Tcb.tid).getD 0) (s.status c))
      | _, _ => (s, .blocked)

end Tree

/-! ### Runs -/

inductive Call where
  | fork (addr : Option Nat) (allocated : Bool)
  | threadFork
  | vanish
  | taskVanish (status : Int)
  | setStatus (status : Int)
  | wait

/-- A call of the `k`-th thread of process `p`. -/
structure Input where
  p : Nat
  k : Nat
  call : Call

/-- The status that a call gives for its process. -/
def Call.status? : Call → Option Int
  | .taskVanish status | .setStatus status => some status
  | _ => none

namespace Tree

def call (s : Tree) (i : Input) : Tree :=
  match i.call with
  | .fork addr allocated => s.fork i.p addr allocated
  | .threadFork => s.threadFork i.p
  | .vanish => s.vanish i.p i.k
  | .taskVanish status => s.taskVanish i.p i.k status
  | .setStatus status => s.setStatus i.p status
  | .wait => (s.wait i.p).1

/-- The bookkeeping of a call: the status that was given, and the exit of the process
with the last of its threads. -/
def record (s : Tree) (i : Input) : Tree :=
  let n := s.serial i.p
  let given := i.call.status?.getD (s.declared n)
  { s with declared := Function.update s.declared n given
           exitStatus := if s.threadAliveCount i.p = 0 then Function.update s.exitStatus n (some given)
             else s.exitStatus }

end Tree

def step (s : Tree) (i : Input) : Tree := if s.Runs i.p i.k then (s.call i).record i else s

/-- The tree that `kernel_main` has made before the first user program runs: the
root with its child `init`. -/
def boot (root init : Nat) : Tree where
  live x := x = root ∨ x = init
  links := ⟨fun x => x, fun x => x⟩
  parent := Function.update (fun _ => none) init (some root)
  children := Function.update (fun _ => none) root (some init)
  tcbs := Function.update (Function.update (fun _ => []) root [⟨0, true⟩]) init [⟨1, true⟩]
  status _ := 0
  root := root
  threadCount := 2
  created := 2
  serial := Function.update (fun _ => 0) init 1
  pid := Function.update (fun _ => 0) init 1
  had := Function.update (fun _ => 0) 0 1
  returned := []
  declared _ := 0
  exitStatus _ := none

end OsKernel.Process
