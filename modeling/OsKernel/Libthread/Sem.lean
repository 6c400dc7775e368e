/-
Semaphores (`user/libthread/sem.c`).

What a call does while it holds the lock of the semaphore is one step, but for a
`sem_signal` that wakes somebody: `cond_signal` holds the lock while it calls
`make_runnable` until the thread it has taken off the list has called `deschedule`, and the
count goes up only then. A thread that waits has put itself on the list before it gives up
the lock, and needs the lock again once it has been woken.

The count is an `int`: the law of counting holds as long as no `sem_signal` finds its
greatest value and no `sem_wait` its least.
-/

import OsKernel.Lib.Roster
import OsKernel.Lib.Run
import Mathlib.Algebra.Group.Int.Defs
import Mathlib.Logic.Function.Basic

namespace OsKernel.Sem

open Run

abbrev Thread := Nat

inductive Pc where
  | idle
  /-- In `cond_wait`, on the list of the condition variable; the lock has been given up. -/
  | registered
  | descheduled
  /-- Made runnable, and to take the lock again. -/
  | awake
  /-- In `sem_signal`, to take the lock. -/
  | signals
  /-- In `cond_signal`, which calls `make_runnable` until it succeeds. -/
  | wakes (target : Thread)
  /-- Back in `sem_signal`, which will increment the count. -/
  | increments
deriving DecidableEq

structure State where
  count : BitVec 32
  /-- The list of the condition variable, from the head on. -/
  tids : List Thread
  pc : Thread → Pc
  /-- Who holds the lock between two steps. -/
  locked : Option Thread
  /-- The calls of `sem_signal` that have started, and those that have incremented. -/
  started : Nat
  incremented : Nat
  /-- The calls of `sem_wait` that have decremented, and those that have returned. -/
  decremented : Nat
  returned : Nat

/-- After `sem_init`. -/
def State.init (count : BitVec 32) : State := ⟨count, [], fun _ => .idle, none, 0, 0, 0, 0⟩

inductive Input where
  | wait (t : Thread)
  | deschedule (t : Thread)
  /-- `sem_wait` returns after its wait. -/
  | waitReturns (t : Thread)
  /-- `sem_signal` is called. -/
  | signal (t : Thread)
  /-- It has the lock. -/
  | locks (t : Thread)
  /-- `make_runnable` is called. -/
  | makeRunnable (t : Thread)
  | increment (t : Thread)

namespace State

def goto (s : State) (t : Thread) (pc : Pc) : State := { s with pc := Function.update s.pc t pc }

/-- `sem_wait`, up to its return or its wait. -/
def wait (s : State) (t : Thread) : State :=
  let count := s.count - 1
  if count.toInt < 0 then
    { s with
      count := count
      decremented := s.decremented + 1
      tids := s.tids ++ [t]
      pc := Function.update s.pc t .registered }
  else
    { s with
      count := count
      decremented := s.decremented + 1
      returned := s.returned + 1 }

/-- The end of `sem_signal`. -/
def increment (s : State) (t : Thread) : State :=
  { s with
    count := s.count + 1
    incremented := s.incremented + 1
    pc := Function.update s.pc t .idle
    locked := none }

/-- `sem_signal` under the lock, up to its end or to `make_runnable`. -/
def locks (s : State) (t : Thread) : State :=
  if s.count.toInt < 0 then match s.tids with
    | [] => s.increment t
    | u :: tids =>
        { s with
          tids := tids
          pc := Function.update s.pc t (.wakes u)
          locked := some t }
  else s.increment t

/-- Fails for a thread that has not called `deschedule`. -/
def makeRunnable (s : State) (t u : Thread) : State :=
  if s.pc u = .descheduled then (s.goto u .awake).goto t .increments else s

def step (s : State) : Input → State
  | .wait t => if s.pc t = .idle ∧ s.locked = none then s.wait t else s
  | .deschedule t => if s.pc t = .registered then s.goto t .descheduled else s
  | .waitReturns t =>
      if s.pc t = .awake ∧ s.locked = none then
        { s with pc := Function.update s.pc t .idle, returned := s.returned + 1 }
      else s
  | .signal t =>
      if s.pc t = .idle then
        { s with pc := Function.update s.pc t .signals, started := s.started + 1 }
      else s
  | .locks t => if s.pc t = .signals ∧ s.locked = none then s.locks t else s
  | .makeRunnable t => match s.pc t with
    | .wakes u => s.makeRunnable t u
    | _ => s
  | .increment t => if s.pc t = .increments then s.increment t else s

end State

/-- The laws of counting, for the initial count. -/
structure Counts (count : BitVec 32) (s : State) : Prop where
  returned : (s.returned : Int) ≤ count.toInt + s.started
  count : s.locked = none → s.count.toInt = count.toInt + s.incremented - s.decremented
  registered : s.locked = none → (s.tids.length : Int) = max 0 (-s.count.toInt)

/-- The count does not overflow. -/
def InRange (s : State) : Input → Prop
  | .wait t => s.pc t = .idle → s.locked = none → -2 ^ 31 < s.count.toInt
  | .locks t => s.pc t = .signals → s.locked = none → s.count.toInt < 2 ^ 31 - 1
  | _ => True

theorem toInt_sub_one {c : BitVec 32} (low : -2 ^ 31 < c.toInt) : (c - 1).toInt = c.toInt - 1 := by
  rw [BitVec.toInt_eq_toNat_cond] at low ⊢
  rw [BitVec.toInt_eq_toNat_cond]
  have := c.isLt
  rw [BitVec.toNat_sub, show (1 : BitVec 32).toNat = 1 from rfl]
  omega

theorem toInt_add_one {c : BitVec 32} (high : c.toInt < 2 ^ 31 - 1) :
    (c + 1).toInt = c.toInt + 1 := by
  rw [BitVec.toInt_eq_toNat_cond] at high ⊢
  rw [BitVec.toInt_eq_toNat_cond]
  have := c.isLt
  rw [BitVec.toNat_add, show (1 : BitVec 32).toNat = 1 from rfl]
  omega

/-- The thread holds the lock. -/
def Pc.holds : Pc → Bool
  | .wakes _ | .increments => true
  | _ => false

/-- The thread has called `sem_signal`, which has not yet incremented the count. -/
def Pc.signalling : Pc → Bool
  | .signals | .wakes _ | .increments => true
  | _ => false

/-- How many have been taken off the list, but not yet been made runnable. -/
def taken (pc : Thread → Pc) : Option Thread → Nat
  | none => 0
  | some t => if pc t = .increments then 0 else 1

structure Inv (count : BitVec 32) (s : State) : Prop where
  count : s.count.toInt = count.toInt + s.incremented - s.decremented
  held : ∀ t, s.locked = some t ↔ (s.pc t).holds = true
  registered : s.locked = none → (s.tids.length : Int) = max 0 (-s.count.toInt)
  registeredHeld : s.locked ≠ none → (s.tids.length : Int) = -s.count.toInt - 1
  waits : ∃ awake, Roster (fun t => s.pc t = .awake) awake ∧
    s.decremented = s.returned + s.tids.length + awake.length + taken s.pc s.locked
  signals : ∃ signalling, Roster (fun t => (s.pc t).signalling = true) signalling ∧
    s.started = s.incremented + signalling.length

section
variable {count : BitVec 32} {s : State} {t u : Thread}

theorem Inv.counts (inv : Inv count s) : Counts count s := by
  refine ⟨?_, fun _ => inv.count, inv.registered⟩
  obtain ⟨awake, -, waits⟩ := inv.waits
  obtain ⟨signalling, roster, signals⟩ := inv.signals
  have total := inv.count
  cases locked : s.locked with
  | none =>
      have registered := inv.registered locked
      omega
  | some t =>
      have registered := inv.registeredHeld (by simp [locked])
      have holds := (inv.held t).mp locked
      have mem : t ∈ signalling := by
        refine (roster.mem t).mpr ?_
        cases pc : s.pc t <;> rw [pc] at holds <;> first | rfl | cases holds
      have pos := List.length_pos_of_mem mem
      omega

theorem Inv.idle_of_open (inv : Inv count s) (free : s.locked = none) (u : Thread) :
    (s.pc u).holds = false := by
  rw [← Bool.not_eq_true, ← inv.held u, free]
  exact nofun

/-- Nobody holds the lock when a thread goes on that does not take it. -/
theorem Inv.held_update {pc : Pc} (inv : Inv count s) (same : pc.holds = (s.pc t).holds)
    (u : Thread) : s.locked = some u ↔ (Function.update s.pc t pc u).holds = true := by
  rw [inv.held u]
  by_cases self : u = t
  · rw [self, Function.update_self, same]
  · rw [Function.update_of_ne self]

/-- And as many have been taken off the list. -/
theorem Inv.taken_update (inv : Inv count s) (pc : Pc) (outside : (s.pc t).holds = false) :
    taken (Function.update s.pc t pc) s.locked = taken s.pc s.locked := by
  cases locked : s.locked with
  | none => rfl
  | some u =>
      have other : u ≠ t := fun same => by
        have holds := (inv.held u).mp locked
        rw [same, outside] at holds
        cases holds
      rw [taken, taken, Function.update_of_ne other]

theorem Inv.wait (inv : Inv count s) (idle : s.pc t = .idle) (free : s.locked = none)
    (low : -2 ^ 31 < s.count.toInt) : Inv count (s.wait t) := by
  have total := inv.count
  have registered := inv.registered free
  have less := toInt_sub_one low
  obtain ⟨awake, roster, waits⟩ := inv.waits
  rw [free, taken] at waits
  unfold State.wait
  dsimp only
  rw [less]
  split
  · obtain ⟨signalling, calls, signals⟩ := inv.signals
    refine ⟨?_, inv.held_update (by rw [idle]; rfl), fun _ => ?_, fun held => absurd free held,
      ⟨awake, roster.stay (p := (· = Pc.awake)) (by rw [idle]; exact ⟨nofun, nofun⟩), ?_⟩,
      ⟨signalling, calls.stay (p := (Pc.signalling · = true)) (by rw [idle]; rfl), signals⟩⟩
    · dsimp only
      rw [less]
      push_cast
      omega
    · dsimp only
      rw [List.length_append, List.length_singleton, less]
      push_cast
      omega
    · dsimp only
      rw [List.length_append, List.length_singleton, free, taken]
      omega
  · refine ⟨?_, inv.held, fun _ => ?_, fun held => absurd free held, ⟨awake, roster, ?_⟩,
      inv.signals⟩
    · dsimp only
      rw [less]
      push_cast
      omega
    · dsimp only
      rw [less]
      omega
    · dsimp only
      rw [free, taken]
      omega

/-- The end of `sem_signal`, when it has woken whoever it was to wake. -/
theorem Inv.increment (inv : Inv count s) (calls : (s.pc t).signalling = true)
    (others : ∀ u ≠ t, (s.pc u).holds = false) (high : s.count.toInt < 2 ^ 31 - 1)
    (registered : (s.tids.length : Int) = max 0 (-(s.count.toInt + 1)))
    (none : taken s.pc s.locked = 0) : Inv count (s.increment t) := by
  have total := inv.count
  have more := toInt_add_one high
  obtain ⟨awake, roster, waits⟩ := inv.waits
  obtain ⟨signalling, roster', signals⟩ := inv.signals
  have fewer := roster'.length_remove calls
  have asleep : s.pc t ≠ .awake := fun pc => by
    rw [pc] at calls
    cases calls
  refine ⟨?_, fun u => ?_, fun _ => ?_, fun held => absurd rfl held,
    ⟨awake, roster.stay (p := (· = Pc.awake)) (iff_of_false nofun asleep), ?_⟩,
    ⟨signalling.erase t, roster'.leave (p := (Pc.signalling · = true)) nofun, ?_⟩⟩
  · dsimp only [State.increment]
    rw [more]
    push_cast
    omega
  · dsimp only [State.increment]
    by_cases self : u = t
    · rw [self, Function.update_self]
      exact iff_of_false nofun nofun
    · rw [Function.update_of_ne self, others u self]
      exact iff_of_false nofun nofun
  · dsimp only [State.increment]
    rw [more]
    exact registered
  · dsimp only [State.increment]
    rw [taken]
    omega
  · dsimp only [State.increment]
    omega

theorem Inv.locks (inv : Inv count s) (calls : s.pc t = .signals) (free : s.locked = none)
    (high : s.count.toInt < 2 ^ 31 - 1) : Inv count (s.locks t) := by
  have registered := inv.registered free
  have ends (empty : (s.tids.length : Int) = max 0 (-(s.count.toInt + 1))) :
      Inv count (s.increment t) :=
    inv.increment (by rw [calls]; rfl) (fun u _ => inv.idle_of_open free u) high empty
      (by rw [free, taken])
  unfold State.locks
  split
  · cases list : s.tids with
    | nil =>
        rw [list, List.length_nil] at registered
        omega
    | cons u tids =>
        obtain ⟨awake, roster, waits⟩ := inv.waits
        obtain ⟨signalling, roster', signals⟩ := inv.signals
        rw [list, List.length_cons] at registered
        rw [free, taken, list, List.length_cons] at waits
        refine ⟨inv.count, fun v => ?_, nofun, fun _ => ?_,
          ⟨awake, roster.stay (p := (· = Pc.awake)) (by rw [calls]; exact ⟨nofun, nofun⟩), ?_⟩,
          ⟨signalling, roster'.stay (p := (Pc.signalling · = true)) (by rw [calls]; rfl), signals⟩⟩
        · dsimp only
          by_cases self : v = t
          · rw [self, Function.update_self]
            exact iff_of_true rfl rfl
          · rw [Function.update_of_ne self, inv.idle_of_open free v]
            exact iff_of_false (fun same => self (Option.some.inj same).symm) nofun
        · dsimp only
          push_cast at registered
          omega
        · dsimp only
          rw [taken, Function.update_self, if_neg nofun]
          omega
  · exact ends (by omega)

theorem Inv.makeRunnable (inv : Inv count s) (wakes : s.pc t = .wakes u) :
    Inv count (s.makeRunnable t u) := by
  unfold State.makeRunnable
  split
  · rename_i sleeps
    have locked : s.locked = some t := (inv.held t).mpr (by rw [wakes]; rfl)
    have other : t ≠ u := fun same => by
      rw [same, sleeps] at wakes
      cases wakes
    obtain ⟨awake, roster, waits⟩ := inv.waits
    obtain ⟨signalling, roster', signals⟩ := inv.signals
    rw [locked, taken, wakes, if_neg nofun] at waits
    have woken := roster.enter (p := (· = Pc.awake)) (a := u) (by rw [sleeps]; nofun) rfl
    have called := roster'.stay (p := (Pc.signalling · = true)) (a := u) (b := Pc.awake)
      (by rw [sleeps]; rfl)
    have still : Function.update s.pc u .awake t = .wakes u :=
      (Function.update_of_ne other ..).trans wakes
    refine ⟨inv.count, fun v => ?_, inv.registered, inv.registeredHeld,
      ⟨u :: awake, woken.stay (p := (· = Pc.awake)) (by rw [still]; exact ⟨nofun, nofun⟩), ?_⟩,
      ⟨signalling, called.stay (p := (Pc.signalling · = true)) (by rw [still]; rfl), signals⟩⟩
    · have same : Pc.awake.holds = (s.pc u).holds := by
        rw [sleeps]
        rfl
      refine (inv.held_update same v).trans ?_
      dsimp only [State.goto]
      by_cases self : v = t
      · rw [self, still, Function.update_self]
        exact Iff.rfl
      · rw [Function.update_of_ne self]
    · rw [show taken _ _ = 0 from ?_, List.length_cons]
      · exact waits.trans (by simp only [State.goto]; omega)
      · dsimp only [State.goto]
        rw [locked, taken, Function.update_self, if_pos rfl]
  · exact inv

theorem Inv.waitReturns (inv : Inv count s) (awake : s.pc t = .awake) :
    Inv count { s with pc := Function.update s.pc t .idle, returned := s.returned + 1 } := by
  obtain ⟨threads, roster, waits⟩ := inv.waits
  obtain ⟨signalling, roster', signals⟩ := inv.signals
  have fewer := roster.length_remove awake
  refine ⟨inv.count, inv.held_update (by rw [awake]; rfl), inv.registered, inv.registeredHeld,
    ⟨threads.erase t, roster.leave (p := (· = Pc.awake)) nofun, ?_⟩,
    ⟨signalling, roster'.stay (p := (Pc.signalling · = true)) (by rw [awake]; rfl), signals⟩⟩
  dsimp only
  rw [inv.taken_update .idle (by rw [awake]; rfl)]
  omega

theorem Inv.step {input : Input} (inv : Inv count s) (inRange : InRange s input) :
    Inv count (s.step input) := by
  cases input with
  | wait t =>
      unfold State.step
      dsimp only
      split
      · rename_i enabled
        exact inv.wait enabled.1 enabled.2 (inRange enabled.1 enabled.2)
      · exact inv
  | deschedule t =>
      unfold State.step
      dsimp only
      split
      · rename_i pc
        obtain ⟨awake, roster, waits⟩ := inv.waits
        obtain ⟨signalling, roster', signals⟩ := inv.signals
        refine ⟨inv.count, inv.held_update (by rw [pc]; rfl), inv.registered, inv.registeredHeld,
          ⟨awake, roster.stay (p := (· = Pc.awake)) (by rw [pc]; exact ⟨nofun, nofun⟩), ?_⟩,
          ⟨signalling, roster'.stay (p := (Pc.signalling · = true)) (by rw [pc]; rfl), signals⟩⟩
        exact waits.trans (congrArg _ (inv.taken_update .descheduled (by rw [pc]; rfl)).symm)
      · exact inv
  | waitReturns t =>
      unfold State.step
      dsimp only
      split
      · rename_i enabled
        exact inv.waitReturns enabled.1
      · exact inv
  | signal t =>
      unfold State.step
      dsimp only
      split
      · rename_i pc
        obtain ⟨awake, roster, waits⟩ := inv.waits
        obtain ⟨signalling, roster', signals⟩ := inv.signals
        refine ⟨inv.count, inv.held_update (by rw [pc]; rfl), inv.registered, inv.registeredHeld,
          ⟨awake, roster.stay (p := (· = Pc.awake)) (by rw [pc]; exact ⟨nofun, nofun⟩), ?_⟩,
          ⟨t :: signalling,
            roster'.enter (p := (Pc.signalling · = true)) (by rw [pc]; nofun) rfl, ?_⟩⟩
        · exact waits.trans (congrArg _ (inv.taken_update .signals (by rw [pc]; rfl)).symm)
        · dsimp only
          rw [List.length_cons]
          omega
      · exact inv
  | locks t =>
      unfold State.step
      dsimp only
      split
      · rename_i enabled
        exact inv.locks enabled.1 enabled.2 (inRange enabled.1 enabled.2)
      · exact inv
  | makeRunnable t =>
      unfold State.step
      dsimp only
      split
      · rename_i u wakes
        exact inv.makeRunnable wakes
      · exact inv
  | increment t =>
      unfold State.step
      dsimp only
      split
      · rename_i pc
        have locked : s.locked = some t := (inv.held t).mpr (by rw [pc]; rfl)
        have registered := inv.registeredHeld (by rw [locked]; nofun)
        refine inv.increment (by rw [pc]; rfl) (fun u other => ?_) (by omega) (by omega) ?_
        · rw [← Bool.not_eq_true, ← inv.held u, locked]
          exact fun same => other (Option.some.inj same).symm
        · rw [locked, taken, if_pos pc]
      · exact inv

end

theorem inv_init {count : BitVec 32} (nonneg : 0 ≤ count.toInt) : Inv count (.init count) := by
  refine ⟨?_, fun t => iff_of_false nofun nofun, fun _ => ?_, fun held => absurd rfl held,
    ⟨[], .empty fun t => nofun, rfl⟩, ⟨[], .empty fun t => nofun, rfl⟩⟩
  · dsimp only [State.init]
    omega
  · dsimp only [State.init, List.length_nil]
    omega

/-- The laws of counting hold in every run in which the count does not overflow. -/
theorem sem_counts (count : BitVec 32) (nonneg : 0 ≤ count.toInt) (inputs : List Input)
    (inRange : StepsMeet State.step InRange (.init count) inputs) :
    Along State.step (Counts count) (.init count) inputs :=
  along_of_stepsMeet (fun _ inv => inv.counts) (fun _ _ inv meets => inv.step meets)
    (inv_init nonneg) inRange

/-- One thread passes, one waits, and a third one wakes it. -/
def passAndWait : List Input :=
  [.wait 0, .wait 1, .deschedule 1, .signal 2, .locks 2, .makeRunnable 2, .increment 2,
    .waitReturns 1]

theorem sem_counts_one :
    (run State.step (.init 1) passAndWait).returned = 2 ∧
      Along State.step (Counts 1) (.init 1) passAndWait :=
  ⟨by decide, sem_counts 1 (by decide) passAndWait ⟨fun _ _ => by decide, fun _ _ => by decide,
    trivial, trivial, fun _ _ => by decide, trivial, trivial, trivial, trivial⟩⟩

/-- A signal finds the greatest value. -/
theorem count_overflows : 0 ≤ (BitVec.intMax 32).toInt ∧
    ¬ Counts (.intMax 32) (run State.step (.init (.intMax 32)) [.signal 0, .locks 0]) := by
  refine ⟨by decide, fun counts => ?_⟩
  exact absurd (counts.count (by decide)) (by decide)

end OsKernel.Sem
