/-
What a failed `thr_create` leaves behind (`user/libthread/thread.c`, `append_node` of
`user/libthread/linked_list.c`).

`thr_create` obtains three blocks: the `thread_info`, the stack, and in `append_node` the node.
It gives the first back when it cannot go on, but it puts the record into the chain before it
calls `thread_fork`, and does not look at the result. `create_clean_iff` has the exact
condition: the chain and the heap are as before, and the chain holds nothing but threads that
were created, as long as no `thread_fork` fails. Each call finds a heap of its own, any one.
-/

import OsKernel.Lib.Heap
import OsKernel.Libthread.Join

namespace OsKernel.Libthread

open Run State

/-! ### The call -/

/-- `thr_create`: the heap after it, what it has made, and its result. It is told whether it
is given a function, and what `cond_init` and `thread_fork` return. -/
def thrCreate (heap : Heap.State) (func : Bool) (condInit tid : Int) : Heap.State × Creation × Int :=
  if !func then (heap, .noMemory, -1)
  else
    let newThreadInfo := Heap.exec .malloc heap
    if newThreadInfo.2 = 0 then (newThreadInfo.1, .noMemory, -1)
    else if condInit ≠ 0 then
      ((Heap.exec (.free newThreadInfo.2) newThreadInfo.1).1, .noMemory, -1)
    else
      let stackSpace := Heap.exec .malloc newThreadInfo.1
      if stackSpace.2 = 0 then
        ((Heap.exec (.free newThreadInfo.2) stackSpace.1).1, .noMemory, -1)
      else
        -- `append_node` leaves the chain alone when it finds no memory
        let newNode := Heap.exec .malloc stackSpace.1
        (newNode.1, .made stackSpace.2 (newNode.2 != 0) tid, tid)

/-- What comes before `thread_fork` in `thr_create` succeeds. -/
def Forks (heap : Heap.State) (func : Bool) (condInit : Int) : Prop :=
  func = true ∧ (Heap.exec .malloc heap).2 ≠ 0 ∧ condInit = 0 ∧
    (Heap.exec .malloc (Heap.exec .malloc heap).1).2 ≠ 0

inductive Call where
  | create (t : Thread) (heap : Heap.State) (func : Bool) (condInit tid : Int)
  | join (t : Thread) (tid : Int)
  | resume (t : Thread)
  | exit (t : Thread) (status : Status)
  | vanish (t : Thread)
  | crash (t : Thread)

namespace Call

def input : Call → Input
  | create t heap func condInit tid => .create t (thrCreate heap func condInit tid).2.1
  | join t tid => .join t tid
  | resume t => .resume t
  | exit t status => .exit t status
  | vanish t => .vanish t
  | crash t => .crash t

/-- A thread that runs makes the call; `malloc` gives no stack that is out, and the kernel no
number twice. -/
def Possible (s : State) : Call → Prop
  | create t heap func condInit tid => s.live t = true ∧ ∀ stack node,
      (thrCreate heap func condInit tid).2.1 = .made stack node tid → s.fresh stack tid = true
  | _ => True

/-- `thread_fork` is called, and fails. -/
def ForkFails : Call → Prop
  | create _ heap func condInit tid => Forks heap func condInit ∧ tid < 0
  | _ => False

end Call

def State.call (s : State) (c : Call) : State := s.step c.input

/-- A `thr_create` that fails leaves the chain as it is and no block of its own. -/
def Clean (s : State) : Call → Prop
  | c@(.create _ heap func condInit tid) => (thrCreate heap func condInit tid).2.2 < 0 →
      (s.call c).chain = s.chain ∧ ∀ p ∈ (thrCreate heap func condInit tid).1.blocks, p ∈ heap.blocks
  | _ => True

/-- The records of the chain are those of threads that `thread_fork` has created, and have
different numbers. -/
structure Real (s : State) : Prop where
  forked : ∀ u ∈ s.chain, 0 ≤ (s.info u).tid
  distinct : (s.chain.map fun u => (s.info u).tid).Nodup

/-! ### One call -/

theorem malloc_cases (heap : Heap.State) :
    ((Heap.exec .malloc heap).2 = 0 ∧ (Heap.exec .malloc heap).1.blocks = heap.blocks) ∨
      (Heap.exec .malloc heap).2 ≠ 0 ∧ (Heap.exec .malloc heap).2 ∉ heap.blocks ∧
        (Heap.exec .malloc heap).1.blocks = (Heap.exec .malloc heap).2 :: heap.blocks := by
  rw [Heap.exec]
  dsimp only
  split
  · exact .inl ⟨rfl, rfl⟩
  · rename_i found
    rw [not_or] at found
    exact .inr ⟨found.1, found.2, rfl⟩

theorem blocks_free (p : Addr) (heap : Heap.State) :
    (Heap.exec (.free p) heap).1.blocks = heap.blocks.erase p := rfl

/-- Up to `thread_fork` a call that fails has made nothing, and given back what it had. From
then on its record is out. -/
theorem thrCreate_cases (heap : Heap.State) (func : Bool) (condInit tid : Int) :
    (¬ Forks heap func condInit ∧ (thrCreate heap func condInit tid).2 = (.noMemory, -1) ∧
        (thrCreate heap func condInit tid).1.blocks = heap.blocks) ∨
      Forks heap func condInit ∧
        (∃ stack node, (thrCreate heap func condInit tid).2 = (.made stack node tid, tid)) ∧
        ∃ p ∈ (thrCreate heap func condInit tid).1.blocks, p ∉ heap.blocks := by
  rw [thrCreate]
  split
  · rename_i null
    exact .inl ⟨fun forks => by simp [forks.1] at null, rfl, rfl⟩
  rename_i given
  dsimp only
  rcases malloc_cases heap with ⟨null, same⟩ | ⟨found, new, record⟩
  · rw [if_pos null]
    exact .inl ⟨fun forks => forks.2.1 null, rfl, same⟩
  rw [if_neg found]
  split
  · rename_i failed
    refine .inl ⟨fun forks => failed forks.2.2.1, rfl, ?_⟩
    rw [blocks_free, record]
    exact List.erase_cons_head _ _
  rename_i ready
  rcases malloc_cases (Heap.exec .malloc heap).1 with ⟨null, same⟩ | ⟨stack, -, both⟩
  · rw [if_pos null]
    refine .inl ⟨fun forks => forks.2.2.2 null, rfl, ?_⟩
    rw [blocks_free, same, record]
    exact List.erase_cons_head _ _
  · rw [if_neg stack]
    refine .inr ⟨⟨by simpa using given, found, not_not.mp ready, stack⟩, ⟨_, _, rfl⟩, _, ?_, new⟩
    have kept : (Heap.exec .malloc heap).2 ∈
        (Heap.exec .malloc (Heap.exec .malloc heap).1).1.blocks := by
      rw [both, record]
      exact List.mem_cons_of_mem _ List.mem_cons_self
    rcases malloc_cases (Heap.exec .malloc (Heap.exec .malloc heap).1).1 with ⟨-, same⟩ | ⟨-, -, all⟩
    · rw [same]
      exact kept
    · rw [all]
      exact List.mem_cons_of_mem _ kept

theorem clean_iff {s : State} {c : Call} : Clean s c ↔ ¬ c.ForkFails := by
  cases c with
  | create t heap func condInit tid =>
      rw [Clean, Call.ForkFails, State.call, Call.input]
      rcases thrCreate_cases heap func condInit tid with
        ⟨early, out, same⟩ | ⟨forks, ⟨stack, node, out⟩, p, mem, new⟩
      · rw [out, same]
        exact iff_of_true (fun _ => ⟨rfl, fun p mem => mem⟩) fun fails => early fails.1
      · rw [out, and_iff_right forks]
        exact ⟨fun clean neg => new ((clean neg).2 p mem), fun ok neg => absurd neg ok⟩
  | _ => exact iff_of_true trivial id

/-! ### Whole runs -/

/-- What a step leaves of the chain when it makes no record. -/
structure Shrinks (s s' : State) : Prop where
  chain : s'.chain.Sublist s.chain
  tid : ∀ u, (s'.info u).tid = (s.info u).tid
  count : s'.count = s.count

/-- The records of the chain are real, and of the numbers given so far none is missing. -/
structure RealInv (s : State) : Prop where
  real : Real s
  created : ∀ u ∈ s.chain, u < s.count

section
variable {s s' : State}

theorem RealInv.shrinks (inv : RealInv s) (less : Shrinks s s') : RealInv s' := by
  have tids : (fun u => (s'.info u).tid) = fun u => (s.info u).tid := funext less.tid
  refine ⟨⟨fun u mem => ?_, ?_⟩, fun u mem => ?_⟩
  · rw [less.tid u]
    exact inv.real.forked u (less.chain.subset mem)
  · rw [tids]
    exact inv.real.distinct.sublist (less.chain.map _)
  · rw [less.count]
    exact inv.created u (less.chain.subset mem)

theorem Shrinks.refl (s : State) : Shrinks s s := ⟨.refl _, fun _ => rfl, rfl⟩

theorem shrinks_setInfo (s : State) (u : Thread) (info : ThreadInfo) (same : info.tid = (s.info u).tid) :
    Shrinks s (s.setInfo u info) := by
  refine ⟨.refl _, fun v => ?_, rfl⟩
  by_cases self : v = u
  · rw [self, setInfo_self, same]
  · rw [setInfo_other self]

theorem shrinks_cleanup (s : State) (u : Thread) : Shrinks s (s.cleanup u) :=
  ⟨List.erase_sublist, fun _ => rfl, rfl⟩

theorem shrinks_join (s : State) (t : Thread) (tid : Int) : Shrinks s (s.join t tid) := by
  unfold State.join
  cases s.find tid with
  | none => exact .refl s
  | some u =>
      dsimp only
      split
      · exact shrinks_cleanup s u
      · split
        · exact .refl s
        · have less := shrinks_setInfo s u { s.info u with isJoinedOn := true } rfl
          exact ⟨less.chain, less.tid, less.count⟩

theorem shrinks_resume (s : State) (t : Thread) : Shrinks s (s.resume t) := by
  unfold State.resume
  cases s.waits t with
  | none => exact .refl s
  | some u =>
      dsimp only
      split
      · exact ⟨List.erase_sublist, fun _ => rfl, rfl⟩
      · exact .refl s

theorem shrinks_destructEachThread (s : State) : Shrinks s s.destructEachThread := by
  obtain ⟨chain, info, -, count, -⟩ := destructLoop_frame s.chain.length s
  exact ⟨chain, fun u => congrArg (fun info => (info u).tid) info, count⟩

theorem shrinks_exit (s : State) (t : Thread) (status : Status) : Shrinks s (s.exit t status) := by
  unfold State.exit
  split
  · exact shrinks_destructEachThread s
  · cases s.findLast (s.info t).tid with
    | none => exact .refl s
    | some u =>
        have less := shrinks_setInfo s u { s.info u with hasExited := true, status := status } rfl
        exact ⟨less.chain, less.tid, less.count⟩

theorem RealInv.create (inv : RealInv s) {stack : Addr} {tid : Int} (node : Bool)
    (fresh : s.fresh stack tid = true) (forked : 0 ≤ tid) : RealInv (s.create stack node tid) := by
  obtain ⟨-, -, unused⟩ := of_decide_eq_true fresh
  have own : ((s.create stack node tid).info s.count).tid = tid :=
    congrArg ThreadInfo.tid (setInfo_self s s.count _)
  have old : ∀ u ∈ s.chain, ((s.create stack node tid).info u).tid = (s.info u).tid := fun u mem =>
    congrArg ThreadInfo.tid (setInfo_other (Nat.ne_of_lt (inv.created u mem)) _)
  have same : s.chain.map (fun u => ((s.create stack node tid).info u).tid) =
      s.chain.map fun u => (s.info u).tid := List.map_congr_left old
  cases node with
  | false =>
      refine ⟨⟨fun u mem => ?_, ?_⟩, fun u mem => Nat.lt_succ_of_lt (inv.created u mem)⟩
      · rw [old u mem]
        exact inv.real.forked u mem
      · exact same ▸ inv.real.distinct
  | true =>
      refine ⟨⟨fun u mem => ?_, ?_⟩, fun u mem => ?_⟩
      · rcases List.mem_append.mp mem with mem | new
        · rw [old u mem]
          exact inv.real.forked u mem
        · rw [List.mem_singleton.mp new, own]
          exact forked
      · have chain : (s.create stack true tid).chain = s.chain ++ [s.count] := rfl
        rw [chain, List.map_append, same, List.map_singleton, own]
        refine List.nodup_append.mpr ⟨inv.real.distinct, List.nodup_singleton tid, ?_⟩
        rintro _ known _ new rfl
        obtain ⟨u, mem, known⟩ := List.mem_map.mp known
        exact unused forked u (inv.created u mem) (known.trans (List.mem_singleton.mp new))
      · rcases List.mem_append.mp mem with mem | new
        · exact Nat.lt_succ_of_lt (inv.created u mem)
        · rw [List.mem_singleton.mp new]
          exact Nat.lt_succ_self s.count

theorem RealInv.call {c : Call} (inv : RealInv s) (possible : c.Possible s) (ok : ¬ c.ForkFails) :
    RealInv (s.call c) := by
  refine step_cases s c.input inv ?_ (fun t tid _ _ => inv.shrinks (shrinks_join s t tid))
    (fun t _ _ => inv.shrinks (shrinks_resume s t))
    (fun t status _ _ => inv.shrinks (shrinks_exit s t status))
    (fun t => inv.shrinks ⟨.refl _, fun _ => rfl, rfl⟩)
    fun t _ _ => inv.shrinks (shrinks_destructEachThread s)
  intro t stack node tid' isCreate fresh
  cases c with
  | create u heap func condInit tid =>
      injection isCreate with _ made
      rcases thrCreate_cases heap func condInit tid with ⟨-, out, -⟩ | ⟨forks, ⟨stack', node', out⟩, -⟩
      · rw [out] at made
        cases made
      · rw [out] at made
        cases made
        exact inv.create node fresh (Int.not_lt.mp fun neg => ok ⟨forks, neg⟩)
  | _ => cases isCreate

theorem RealInv.init {tid : Int} (thread : 0 ≤ tid) : RealInv (.init tid) where
  real := ⟨fun _ _ => thread, List.nodup_singleton tid⟩
  created u mem := by
    rw [List.mem_singleton.mp mem]
    exact Nat.zero_lt_one

end

/-- The exact condition. A call of `thr_create` that fails is clean if and only if it is not
`thread_fork` that fails; and in a run every failed call is clean, and the chain real in every
state, if and only if no `thread_fork` fails. -/
theorem create_clean_iff {tid : Int} (thread : 0 ≤ tid) {calls : List Call}
    (possible : StepsMeet State.call (fun s c => c.Possible s) (.init tid) calls) :
    (∀ s c, Clean s c ↔ ¬ c.ForkFails) ∧
    (StepsMeet State.call Clean (.init tid) calls ∧ Along State.call Real (.init tid) calls ↔
      ∀ c ∈ calls, ¬ c.ForkFails) := by
  refine ⟨fun s c => clean_iff, ?_, fun ok => ?_⟩
  · rintro ⟨clean, -⟩ c mem
    obtain ⟨front, back, rfl⟩ := List.append_of_mem mem
    exact clean_iff.mp (clean.at front back)
  · have meets := possible.and (stepsMeet_of_inputs (fun c mem _ => ok c mem) (State.init tid))
    exact ⟨meets.mono fun s c meet => clean_iff.mpr meet.2,
      along_of_stepsMeet (fun s inv => inv.real) (fun s c inv meet => inv.call meet.1 meet.2)
        (RealInv.init thread) meets⟩

/-- A heap with nothing out, and room. -/
def roomy : Heap.State := ⟨[], fun n => 100 * (n + 1)⟩

theorem possible_roomy (tid : Int) (other : tid ≠ 1) :
    (Call.create root roomy true 0 tid).Possible (.init 1) := by
  refine ⟨rfl, fun stack node made => ?_⟩
  cases made
  refine decide_eq_true ⟨by decide, List.not_mem_nil, fun _ u _ same => other same.symm⟩

theorem create_clean_iff_one :
    StepsMeet State.call Clean (.init 1) [.create root roomy true 0 2] ∧
      Along State.call Real (.init 1) [.create root roomy true 0 2] := by
  have possible : StepsMeet State.call (fun s c => c.Possible s) (.init 1)
      [.create root roomy true 0 2] := ⟨possible_roomy 2 (by decide), trivial⟩
  refine (create_clean_iff (by decide) possible).2.mpr fun c mem fails => ?_
  rw [List.mem_singleton.mp mem] at fails
  exact absurd fails.2 (by decide)

/-- `thread_fork` fails for the second thread: `thr_create` returns -1, and the record stays in
the chain, with -1 for its number and with its three blocks. -/
theorem fork_failure_leaks :
    (Call.create root roomy true 0 (-1)).Possible (.init 1) ∧
    (thrCreate roomy true 0 (-1)).2.2 = -1 ∧
    (thrCreate roomy true 0 (-1)).1.blocks = [300, 200, 100] ∧
    ((State.init 1).call (.create root roomy true 0 (-1))).chain = [0, 1] ∧
    ¬ Clean (.init 1) (.create root roomy true 0 (-1)) ∧
    ¬ Real ((State.init 1).call (.create root roomy true 0 (-1))) := by
  have chain : ((State.init 1).call (.create root roomy true 0 (-1))).chain = [0, 1] := by decide
  refine ⟨possible_roomy (-1) (by decide), rfl, rfl, chain, fun clean => ?_, fun real => ?_⟩
  · have same := (clean (by decide)).1
    rw [chain] at same
    cases same
  · exact absurd (real.forked 1 (by rw [chain]; decide)) (by decide)

end OsKernel.Libthread
