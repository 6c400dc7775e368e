/-
`handle_deschedule` and `handle_make_runnable` (`kern/system_call.c`) under preemption.

One thread, `target`, deschedules itself on a reject word; any other threads store 1 in
the word and make it runnable. The thread at the head of the `RUNNING` list takes the next
step. What the source does with interrupts disabled is one step, so the word is read and
the thread moved in the same one; between two steps the processor may be taken away, and
the rest of the kernel may move threads. `woken` is bookkeeping: some thread has taken both
steps. The mutex of the PCB only delays a thread, and is left out.
-/

import OsKernel.Lib.Run
import OsKernel.Sched.Lists

namespace OsKernel.Sched.Deschedule

open Run

/-- `find_tcb_in_list`, of a thread number. -/
def findTcbInList (k : Threads) (tid : Int) (r : Reason) : Option Thread :=
  (k.lists (.reason r)).find? fun u => (k.tcb u).tid = tid

/-- `handle_make_runnable`, and what it returns. -/
def handleMakeRunnable (k : Threads) (tid : Int) : Threads × Int :=
  match findTcbInList k tid .deschedule with
  | none => (k, -1)
  | some t => (k.alter t .ready none, 0)

inductive Pc where
  | user
  /-- `handle_deschedule`, at the check of the pointer. -/
  | deschedule
  /-- At its lock. -/
  | lock
  /-- Switched out; when it runs again it returns. -/
  | switched
  /-- About to store 1 in the reject word. -/
  | store
  /-- About to make the target runnable. -/
  | makeRunnable
deriving DecidableEq

structure State where
  k : Threads
  reject : BitVec 32
  pc : Thread → Pc
  eax : Thread → Int
  woken : Bool

inductive Input where
  /-- The next step of the running thread: the check finds the word readable or not, and
  `find_next_thread` finds `next`. -/
  | advance (readable : Bool) (next : Option Thread)
  /-- The running thread begins one of the two. -/
  | call
  /-- The processor is taken from the running thread. -/
  | preempt (u : Thread)
  /-- The rest of the kernel moves a thread. -/
  | alter (u : Thread) (state : ThreadState) (detail : Option BlockingDetail)

namespace State

def goto (s : State) (t : Thread) (pc : Pc) : State := { s with pc := Function.update s.pc t pc }

/-- The handler returns. -/
def ret (s : State) (t : Thread) (r : Int) : State :=
  { s.goto t .user with eax := Function.update s.eax t r }

def running (s : State) : Option Thread := (s.k.lists (.state .running)).head?

/-- The next step of thread `t`. -/
def advance (s : State) (target t : Thread) (readable : Bool) (next : Option Thread) : State :=
  match s.pc t with
  | .user => s
  | .deschedule => if readable then s.goto t .lock else s.ret t (-1)
  | .lock =>
      if s.reject ≠ 0 then s.ret t 0
      else match next with
        | some next =>
            { s.goto t .switched with k := s.k.switchContext next .waiting (some .deschedule) }
        -- the machine halts
        | none => s
  | .switched => s.ret t 0
  | .store => { s.goto t .makeRunnable with reject := 1 }
  | .makeRunnable =>
      let (k, r) := handleMakeRunnable s.k (s.k.tcb target).tid
      { s.ret t r with k := k, woken := true }

def step (target : Thread) (s : State) : Input → State
  | .advance readable next => match s.running with
    | some t => s.advance target t readable next
    | none => s
  | .call => match s.running with
    | some t =>
        if s.pc t = .user then s.goto t (if t = target then .deschedule else .store) else s
    | none => s
  | .preempt u =>
      if u ∈ s.k.lists (.state .ready) then { s with k := s.k.switchContext u .ready none } else s
  | .alter u state detail =>
      -- nobody else deschedules the target
      if u = target ∧ state = .waiting ∧ detail = some .deschedule then s
      else { s with k := s.k.alter u state detail }

end State

/-! ### Moves -/

/-- No two threads have one number. -/
def Numbered (k : Threads) : Prop := ∀ t u, (k.tcb t).tid = (k.tcb u).tid → t = u

/-- The threads in the `DESCHEDULE` list. -/
def descheduled (k : Threads) : List Thread := k.lists (.reason .deschedule)

section
variable {k : Threads} {t u : Thread} {state : ThreadState} {detail : Option BlockingDetail}

theorem Numbered.alter (numbered : Numbered k) : Numbered (k.alter t state detail) := by
  intro v w same
  rw [(Threads.alter_names v).2, (Threads.alter_names w).2] at same
  exact numbered v w same

theorem Numbered.switchContext (numbered : Numbered k) :
    Numbered (k.switchContext t state detail) := by
  unfold Threads.switchContext
  split
  · exact numbered
  · split
    · exact numbered
    · exact numbered.alter.alter

theorem Numbered.makeRunnable (numbered : Numbered k) (tid : Int) :
    Numbered (handleMakeRunnable k tid).1 := by
  unfold handleMakeRunnable
  split
  · exact numbered
  · exact numbered.alter

theorem wellFormed_makeRunnable (wf : k.WellFormed) (tid : Int) :
    (handleMakeRunnable k tid).1.WellFormed := by
  unfold handleMakeRunnable
  split
  · exact wf
  · exact wf.alter _ _ _

/-- A thread that is not in the list comes there only by its own move. -/
theorem not_descheduled_alter (out : t ∉ descheduled k)
    (other : ¬ (u = t ∧ state = .waiting ∧ detail = some .deschedule)) :
    t ∉ descheduled (k.alter u state detail) := by
  intro mem
  rcases Threads.mem_lists_alter mem with mem | ⟨self, d, frontPushed, goes⟩
  · exact out mem
  have idx := Threads.destination_idx goes
  cases state with
  | waiting =>
      cases detail with
      | none => cases goes
      | some detail =>
          rw [if_pos rfl, Option.getD_some, ListIdx.reason.injEq] at idx
          refine other ⟨self.symm, rfl, ?_⟩
          cases detail <;> simp [BlockingDetail.reason] at idx ⊢
  | _ => cases idx

/-- A descheduled thread goes to the `READY` list. -/
theorem runnable_lists (wf : k.WellFormed) (mem : u ∈ descheduled k) :
    (k.alter u .ready none).lists (.state .ready) =
        place (k.lists (.state .ready)) u (readyDestination (fun u => (k.tcb u).pcb) (k.tcb u).pcb
          (k.lists (.state .ready))) false ∧
      descheduled (k.alter u .ready none) = (descheduled k).erase u ∧
      ∀ i, i ≠ .state .ready → i ≠ .reason .deschedule →
        (k.alter u .ready none).lists i = k.lists i :=
  wf.alter_lists mem (by decide) (by decide) rfl

/-- `make_runnable` returns 0 only if it has moved one thread, of this number, from the
`DESCHEDULE` list to the `READY` list; else it has changed nothing. -/
def MovesOne (k : Threads) (tid : Int) : Prop :=
  if (handleMakeRunnable k tid).2 = 0 then
    ∃ u ∈ descheduled k, (k.tcb u).tid = tid ∧
      descheduled (handleMakeRunnable k tid).1 = (descheduled k).erase u ∧
      (∃ pre post, k.lists (.state .ready) = pre ++ post ∧
        (handleMakeRunnable k tid).1.lists (.state .ready) = pre ++ u :: post) ∧
      ∀ i, i ≠ .reason .deschedule → i ≠ .state .ready →
        (handleMakeRunnable k tid).1.lists i = k.lists i
  else (handleMakeRunnable k tid).1 = k

theorem movesOne (wf : k.WellFormed) (tid : Int) : MovesOne k tid := by
  rw [MovesOne, handleMakeRunnable]
  cases found : findTcbInList k tid .deschedule with
  | none => exact rfl
  | some u =>
      have mem : u ∈ descheduled k := List.mem_of_find?_eq_some found
      have named : (k.tcb u).tid = tid := by simpa using List.find?_some found
      obtain ⟨ready, left, others⟩ := runnable_lists wf mem
      have new : u ∉ k.lists (.state .ready) := fun inReady => by
        have one := wf.listed _ u inReady
        rw [wf.listed _ u mem] at one
        cases one
      obtain ⟨pre, post, whole, placed, -, -⟩ :=
        place_ready (fun u => (k.tcb u).pcb) (wf.nodup (.state .ready)) new
      exact ⟨u, mem, named, left, ⟨pre, post, whole, ready.trans placed⟩,
        fun i one two => others i two one⟩

end

/-! ### No lost wake-up -/

/-- Once somebody has stored in the word, and so once somebody has taken both steps, the
target does not block. -/
structure Inv (target : Thread) (s : State) : Prop where
  wellFormed : s.k.WellFormed
  numbered : Numbered s.k
  stored : ∀ t, s.pc t = .makeRunnable → s.reject ≠ 0
  woken : s.woken = true → s.reject ≠ 0 ∧ target ∉ descheduled s.k

section
variable {target : Thread} {s : State}

/-- A move of a thread that leaves the target out of the `DESCHEDULE` list. -/
theorem Inv.move (inv : Inv target s) {k : Threads} (wf : k.WellFormed) (numbered : Numbered k)
    (out : target ∉ descheduled s.k → target ∉ descheduled k) : Inv target { s with k := k } :=
  ⟨wf, numbered, inv.stored, fun woken => ⟨(inv.woken woken).1, out (inv.woken woken).2⟩⟩

/-- A thread stands elsewhere; it comes to `make_runnable` only after its store. -/
theorem Inv.goto (inv : Inv target s) (t : Thread) (pc : Pc)
    (after : pc = .makeRunnable → s.reject ≠ 0) : Inv target (s.goto t pc) := by
  refine ⟨inv.wellFormed, inv.numbered, fun u here => ?_, inv.woken⟩
  by_cases self : u = t
  · subst self
    simp only [State.goto, Function.update_self] at here
    exact after here
  · simp only [State.goto, Function.update_of_ne self] at here
    exact inv.stored u here

theorem Inv.ret (inv : Inv target s) (t : Thread) (r : Int) : Inv target (s.ret t r) :=
  have moved := inv.goto t .user nofun
  ⟨moved.wellFormed, moved.numbered, moved.stored, moved.woken⟩

theorem Inv.store (inv : Inv target s) : Inv target { s with reject := 1 } :=
  ⟨inv.wellFormed, inv.numbered, fun _ _ => by simp, fun woken => ⟨by simp, (inv.woken woken).2⟩⟩

/-- `make_runnable` leaves the target out of the `DESCHEDULE` list. -/
theorem Inv.makeRunnable (inv : Inv target s) :
    target ∉ descheduled (handleMakeRunnable s.k (s.k.tcb target).tid).1 := by
  have wf := inv.wellFormed
  rw [handleMakeRunnable]
  cases found : findTcbInList s.k (s.k.tcb target).tid .deschedule with
  | none =>
      have missing := List.find?_eq_none.mp found
      exact fun mem => by simpa using missing target mem
  | some u =>
      have named : (s.k.tcb u).tid = (s.k.tcb target).tid := by simpa using List.find?_some found
      obtain rfl := inv.numbered u target named
      have mem : u ∈ descheduled s.k := List.mem_of_find?_eq_some found
      rw [(runnable_lists inv.wellFormed mem).2.1]
      exact (inv.wellFormed.nodup _).not_mem_erase

theorem Inv.advance (inv : Inv target s) (t : Thread) (readable : Bool) (next : Option Thread) :
    Inv target (s.advance target t readable next) := by
  have wf := inv.wellFormed
  unfold State.advance
  cases here : s.pc t with
  | user => exact inv
  | deschedule =>
      dsimp only
      split
      · exact inv.goto t .lock nofun
      · exact inv.ret t (-1)
  | lock =>
      dsimp only
      split
      · exact inv.ret t 0
      · rename_i free
        cases next with
        | none => exact inv
        | some next =>
            dsimp only
            have moved := inv.goto t .switched nofun
            -- the word is read and the thread moved in one step
            have never : s.woken = true → False := fun woken => free (inv.woken woken).1
            exact ⟨wf.switchContext next .waiting (some .deschedule), inv.numbered.switchContext, moved.stored,
              fun woken => (never woken).elim⟩
  | switched => exact inv.ret t 0
  | store => exact inv.store.goto t .makeRunnable fun _ => by simp
  | makeRunnable =>
      dsimp only
      have moved := inv.ret t (handleMakeRunnable s.k (s.k.tcb target).tid).2
      exact ⟨wellFormed_makeRunnable wf _, inv.numbered.makeRunnable _, moved.stored,
        fun _ => ⟨inv.stored t here, inv.makeRunnable⟩⟩

theorem not_descheduled_switch (u : Thread) (out : target ∉ descheduled s.k) :
    target ∉ descheduled (s.k.switchContext u .ready none) := by
  unfold Threads.switchContext
  rw [if_neg nofun]
  split
  · exact out
  · exact not_descheduled_alter (not_descheduled_alter out nofun) nofun

theorem Inv.step (inv : Inv target s) (input : Input) : Inv target (s.step target input) := by
  unfold State.step
  cases input with
  | advance readable next =>
      dsimp only
      split
      · exact inv.advance _ readable next
      · exact inv
  | call =>
      dsimp only
      split
      · split_ifs
        · exact inv.goto _ .deschedule nofun
        · exact inv.goto _ .store nofun
        · exact inv
      · exact inv
  | preempt u =>
      dsimp only
      split
      · exact inv.move (inv.wellFormed.switchContext u .ready none) inv.numbered.switchContext
          (not_descheduled_switch u)
      · exact inv
  | alter u state detail =>
      dsimp only
      split
      · exact inv
      · rename_i other
        exact inv.move (inv.wellFormed.alter u state detail) inv.numbered.alter
          fun out => not_descheduled_alter out other

/-- In every run the target is not blocked once some thread has stored 1 in the word and
then made it runnable; and `make_runnable` of any number, in any state reached, returns 0
only if it moves one thread, the one of this number. -/
theorem wakeups_kept (target : Thread) (s : State) (wf : s.k.WellFormed)
    (numbered : Numbered s.k) (start : ∀ t, s.pc t = .user) (fresh : s.woken = false)
    (inputs : List Input) :
    Along (State.step target)
      (fun s => (s.woken = true → target ∉ descheduled s.k) ∧ ∀ tid, MovesOne s.k tid) s inputs :=
  have inv : Inv target s :=
    { wellFormed := wf
      numbered := numbered
      stored := fun t here => nomatch (start t).symm.trans here
      woken := fun woken => nomatch fresh.symm.trans woken }
  (along_of_invariant (fun _ input inv => inv.step input) inv inputs).mono
    fun _ inv => ⟨fun woken => (inv.woken woken).2, movesOne inv.wellFormed⟩

end

/-- Thread 0 runs, and is the target; thread 1 is ready. -/
def twoThreads : State where
  k :=
    { tcb := fun t => ⟨0, t, if t = 0 then .running else .ready, .deschedule⟩
      lists := fun
        | .state .running => [0]
        | .state .ready => [1]
        | _ => [] }
  reject := 0
  pc := fun _ => .user
  eax := fun _ => 0
  woken := false

theorem wellFormed_twoThreads : twoThreads.k.WellFormed := by
  refine ⟨fun i => ?_, fun i t mem => ?_⟩
  · rcases i with (_ | _ | _ | _ | _) | _ <;> simp [twoThreads]
  · rcases i with (_ | _ | _ | _ | _) | _ <;> simp [twoThreads] at mem ⊢
    all_goals
      subst mem
      decide

/-- The target blocks; thread 1 stores and makes it runnable. -/
def wakeup : List Input :=
  [.call, .advance true none, .advance true (some 1), .call, .advance true none, .advance true none]

theorem wakeups_kept_two :
    descheduled (run (State.step 0) twoThreads (wakeup.take 3)).k = [0] ∧
      (run (State.step 0) twoThreads wakeup).woken = true ∧
      Along (State.step 0)
        (fun s => (s.woken = true → 0 ∉ descheduled s.k) ∧ ∀ tid, MovesOne s.k tid)
        twoThreads wakeup :=
  ⟨by decide, by decide, wakeups_kept 0 twoThreads wellFormed_twoThreads
    (fun _ _ same => Int.ofNat.inj same) (fun _ => rfl) rfl wakeup⟩

end OsKernel.Sched.Deschedule
