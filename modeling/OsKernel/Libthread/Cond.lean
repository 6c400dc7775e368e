/-
Condition variables (`user/libthread/cond.c`) over `deschedule` and `make_runnable`.

A waiter puts an entry on the list and gives up the mutex before it calls `deschedule`;
whoever takes its entry off the list calls `make_runnable` until that has happened. What is
done under the lock of a condition variable is one step. The mutex of the caller only
delays the return from `cond_wait`, which is a step at any time after the wake-up;
`deschedule` gets a pointer to a word of the stack and does not fail.

The calls of `cond_wait` and those of `cond_signal` and `cond_broadcast` are numbered. The
list of a condition variable holds thread numbers; here it holds the calls, and `caller`
gives the thread. The kernel knows nothing of the calls: `make_runnable` wakes the thread,
whatever call it has descheduled in. The rest is bookkeeping: what each signal has found
and taken, by whom each call was woken, and which calls have returned.
-/

import OsKernel.Lib.Run
import Mathlib.Data.List.Nodup
import Mathlib.Data.List.Pairwise
import Mathlib.Logic.Function.Basic
import Mathlib.Tactic.Common

namespace OsKernel.Cond

open Run

abbrev Thread := Nat

abbrev Cv := Nat

/-- A call of `cond_wait`. -/
abbrev Call := Nat

/-- A call of `cond_signal` or `cond_broadcast`. -/
abbrev Wake := Nat

inductive Pc where
  | idle
  /-- In `cond_wait`, before `deschedule`. -/
  | registered (call : Call)
  | descheduled (call : Call)
  | awake (call : Call)
  /-- Calls `make_runnable` for the callers of these calls, one after the other. -/
  | wakes (wake : Wake) (calls : List Call)
deriving DecidableEq

/-- The call in which the thread has not come back from `deschedule`. -/
def Pc.parked : Pc → Option Call
  | .registered c | .descheduled c => some c
  | _ => none

def Pc.call : Pc → Option Call
  | .registered c | .descheduled c | .awake c => some c
  | _ => none

/-- What a call of `cond_signal` or `cond_broadcast` has found. -/
structure Found where
  broadcast : Bool
  list : List Call
  /-- How many calls of `cond_wait` there had been. -/
  calls : Call

/-- What it has taken off the list. -/
def Found.taken (found : Found) : List Call :=
  if found.broadcast then found.list else found.list.take 1

structure State where
  /-- `tid_head` -/
  lists : Cv → List Call
  pc : Thread → Pc
  caller : Call → Thread
  calls : Call
  wakes : Wake
  found : Wake → Found
  wokenBy : Call → List Wake
  returned : List Call
  finished : List Wake

def State.init : State where
  lists _ := []
  pc _ := .idle
  caller _ := 0
  calls := 0
  wakes := 0
  found _ := ⟨false, [], 0⟩
  wokenBy _ := []
  returned := []
  finished := []

inductive Input where
  | wait (t : Thread) (cv : Cv)
  | deschedule (t : Thread)
  | waitReturns (t : Thread)
  | signal (t : Thread) (cv : Cv)
  | broadcast (t : Thread) (cv : Cv)
  /-- The next `make_runnable`, or the return. -/
  | goOn (t : Thread)

/-- A call of `cond_broadcast` or `cond_signal`. -/
def Input.wakeUp (t : Thread) (cv : Cv) (broadcast : Bool) : Input :=
  if broadcast then .broadcast t cv else .signal t cv

namespace State

/-- `cond_wait`, up to `deschedule`. -/
def wait (s : State) (t : Thread) (cv : Cv) : State :=
  { s with
    lists := Function.update s.lists cv (s.lists cv ++ [s.calls])
    pc := Function.update s.pc t (.registered s.calls)
    caller := Function.update s.caller s.calls t
    calls := s.calls + 1 }

/-- `cond_signal` and `cond_broadcast`, up to `make_runnable`. -/
def take (s : State) (t : Thread) (cv : Cv) (broadcast : Bool) : State :=
  let found : Found := ⟨broadcast, s.lists cv, s.calls⟩
  { s with
    lists := Function.update s.lists cv (if broadcast then [] else (s.lists cv).drop 1)
    pc := Function.update s.pc t (.wakes s.wakes found.taken)
    wakes := s.wakes + 1
    found := Function.update s.found s.wakes found }

/-- `make_runnable`: fails for a thread that is not descheduled. -/
def makeRunnable (s : State) (t : Thread) (w : Wake) (c : Call) (cs : List Call) : State :=
  match s.pc (s.caller c) with
  | .descheduled c' =>
      { s with
        pc := Function.update (Function.update s.pc (s.caller c) (.awake c')) t (.wakes w cs)
        wokenBy := Function.update s.wokenBy c' (s.wokenBy c' ++ [w]) }
  | _ => s

def step (s : State) : Input → State
  | .wait t cv => if s.pc t = .idle then s.wait t cv else s
  | .deschedule t => match s.pc t with
    | .registered c => { s with pc := Function.update s.pc t (.descheduled c) }
    | _ => s
  | .waitReturns t => match s.pc t with
    | .awake c =>
        { s with pc := Function.update s.pc t .idle, returned := s.returned ++ [c] }
    | _ => s
  | .signal t cv => if s.pc t = .idle then s.take t cv false else s
  | .broadcast t cv => if s.pc t = .idle then s.take t cv true else s
  | .goOn t => match s.pc t with
    | .wakes w (c :: cs) => s.makeRunnable t w c cs
    | .wakes w [] =>
        { s with pc := Function.update s.pc t .idle, finished := s.finished ++ [w] }
    | _ => s

def taken (s : State) (w : Wake) : List Call := (s.found w).taken

/-- The caller has not come back from `deschedule`. -/
def Parked (s : State) (c : Call) : Prop := (s.pc (s.caller c)).parked = some c

end State

/-- Wake-ups are neither lost nor invented. -/
structure Exact (s : State) : Prop where
  /-- A return is due to the one wake-up by the one call that took the entry. -/
  returned : ∀ c ∈ s.returned, ∃ w, s.wokenBy c = [w] ∧ ∀ w', c ∈ s.taken w' ↔ w' = w
  /-- The oldest entry is the first. -/
  oldest : ∀ w, (s.found w).list.Pairwise (· < ·)
  /-- Who has taken an entry wakes its caller before it returns. -/
  finished : ∀ w ∈ s.finished, ∀ c ∈ s.taken w, s.wokenBy c = [w] ∧ ¬ s.Parked c
  /-- Nobody else is woken, and nobody who came later. -/
  woken : ∀ c, ∀ w ∈ s.wokenBy c, c ∈ s.taken w ∧ c < (s.found w).calls
  /-- An entry is on a list until it is taken. -/
  kept : ∀ c < s.calls, (∃ cv, c ∈ s.lists cv) ∨ ∃ w, c ∈ s.taken w
  removed : ∀ w, ∀ c ∈ s.taken w, ∀ cv, c ∉ s.lists cv
  ordered : ∀ cv, (s.lists cv).Pairwise (· < ·)
  /-- Whoever is to wake some callers can do so, and return. -/
  finishes : ∀ t w cs, s.pc t = .wakes w cs → ∃ more, (run State.step s more).pc t = .idle

/-- What a call of `cond_signal` or `cond_broadcast` on `cv` by thread `t` does, which
is outside of the library in state `s`; `later` is all that follows. -/
structure Answered (s : State) (t : Thread) (cv : Cv) (broadcast : Bool) (later : List Input) :
    Prop where
  /-- A signal removes the oldest entry, if there is one, a broadcast removes all. -/
  lists : (s.step (.wakeUp t cv broadcast)).lists =
    Function.update s.lists cv (if broadcast then [] else (s.lists cv).drop 1)
  /-- It wakes the callers of the removed entries only. -/
  only : ∀ c, s.wakes ∈ (run State.step (s.step (.wakeUp t cv broadcast)) later).wokenBy c →
    c ∈ if broadcast then s.lists cv else (s.lists cv).take 1
  /-- When it has returned, each of them was woken, by this call alone, and is not
  descheduled. -/
  woken : (run State.step (s.step (.wakeUp t cv broadcast)) later).pc t = .idle →
    ∀ c ∈ if broadcast then s.lists cv else (s.lists cv).take 1,
      (run State.step (s.step (.wakeUp t cv broadcast)) later).wokenBy c = [s.wakes] ∧
        ¬ (run State.step (s.step (.wakeUp t cv broadcast)) later).Parked c

/-! ### The invariant -/

/-- The caller waits, and nobody has woken it. -/
structure State.Waits (s : State) (c : Call) : Prop where
  parked : s.Parked c
  fresh : s.wokenBy c = []
  early : c < s.calls

structure Inv (s : State) : Prop where
  caller : ∀ t c, (s.pc t).call = some c → s.caller c = t ∧ c < s.calls
  ordered : ∀ cv, (s.lists cv).Pairwise (· < ·)
  listed : ∀ cv, ∀ c ∈ s.lists cv, s.Waits c ∧ ∀ w, c ∉ s.taken w
  apart : ∀ cv cv' c, c ∈ s.lists cv → c ∈ s.lists cv' → cv = cv'
  waking : ∀ t w cs, s.pc t = .wakes w cs →
    w < s.wakes ∧ w ∉ s.finished ∧ cs.Nodup ∧ ∀ c ∈ cs, s.Waits c ∧ c ∈ s.taken w
  alone : ∀ t t' w cs cs', s.pc t = .wakes w cs → s.pc t' = .wakes w cs' → t = t'
  found : ∀ w, (s.found w).list.Pairwise (· < ·) ∧
    (∀ c ∈ (s.found w).list, c < (s.found w).calls) ∧ (s.found w).calls ≤ s.calls
  later : ∀ w, s.wakes ≤ w → (s.found w).list = [] ∧ w ∉ s.finished
  taken : ∀ w, ∀ c ∈ s.taken w, (∀ w', c ∈ s.taken w' → w' = w) ∧
    (s.wokenBy c = [w] ∧ ¬ s.Parked c ∨ ∃ t cs, s.pc t = .wakes w cs ∧ c ∈ cs)
  woken : ∀ c, ∀ w ∈ s.wokenBy c, c ∈ s.taken w
  awake : ∀ t c, s.pc t = .awake c → ∃ w, s.wokenBy c = [w]
  returned : ∀ c ∈ s.returned, ∃ w, s.wokenBy c = [w]
  kept : ∀ c < s.calls, (∃ cv, c ∈ s.lists cv) ∨ ∃ w, c ∈ s.taken w

section
variable {s : State} {t : Thread} {c : Call} {w : Wake}

theorem taken_subset (found : Found) : ∀ c ∈ found.taken, c ∈ found.list := by
  intro c mem
  rw [Found.taken] at mem
  split at mem
  · exact mem
  · exact List.mem_of_mem_take mem

theorem Inv.early (inv : Inv s) (mem : c ∈ s.taken w) : c < (s.found w).calls :=
  (inv.found w).2.1 c (taken_subset _ c mem)

/-! ### Steps -/

theorem parked_update {pc : Pc} (same : pc.parked = (s.pc t).parked) (c : Call) :
    State.Parked { s with pc := Function.update s.pc t pc } c ↔ s.Parked c := by
  rw [State.Parked, State.Parked]
  dsimp only
  by_cases self : s.caller c = t
  · rw [self, Function.update_self, same]
  · rw [Function.update_of_ne self]

theorem waits_update {pc : Pc} (same : pc.parked = (s.pc t).parked) (c : Call) :
    State.Waits { s with pc := Function.update s.pc t pc } c ↔ s.Waits c :=
  ⟨fun h => ⟨(parked_update same c).mp h.parked, h.fresh, h.early⟩,
    fun h => ⟨(parked_update same c).mpr h.parked, h.fresh, h.early⟩⟩

theorem State.Waits.log (waits : s.Waits c) (returned : List Call) (finished : List Wake) :
    State.Waits { s with returned := returned, finished := finished } c :=
  ⟨waits.parked, waits.fresh, waits.early⟩

/-- A thread goes on, with nobody left to wake. -/
theorem Inv.goto {pc : Pc} (inv : Inv s) (parked : pc.parked = (s.pc t).parked)
    (call : ∀ c, pc.call = some c → (s.pc t).call = some c) (notAwake : ∀ c, pc ≠ .awake c)
    (quiet : ∀ w cs, pc ≠ .wakes w cs) (drained : ∀ w cs, s.pc t = .wakes w cs → cs = []) :
    Inv { s with pc := Function.update s.pc t pc } := by
  have other {u : Thread} {w : Wake} {cs : List Call}
      (wakes : Function.update s.pc t pc u = .wakes w cs) : s.pc u = .wakes w cs := by
    by_cases self : u = t
    · rw [self, Function.update_self] at wakes
      exact absurd wakes (quiet w cs)
    · rwa [Function.update_of_ne self] at wakes
  refine ⟨fun u c called => ?_, inv.ordered, fun cv c mem => ?_, inv.apart,
    fun u w cs wakes => ?_,
    fun u u' w cs cs' wakes wakes' => inv.alone u u' w cs cs' (other wakes) (other wakes'),
    inv.found, inv.later, fun w c mem => ?_, inv.woken, fun u c awake => ?_, inv.returned, inv.kept⟩
  · dsimp only at called
    by_cases self : u = t
    · rw [self, Function.update_self] at called
      rw [self]
      exact inv.caller t c (call c called)
    · rw [Function.update_of_ne self] at called
      exact inv.caller u c called
  · exact ⟨(waits_update parked c).mpr (inv.listed cv c mem).1, (inv.listed cv c mem).2⟩
  · obtain ⟨lt, on, nodup, each⟩ := inv.waking u w cs (other wakes)
    exact ⟨lt, on, nodup, fun c mem => ⟨(waits_update parked c).mpr (each c mem).1, (each c mem).2⟩⟩
  · obtain ⟨unique, state⟩ := inv.taken w c mem
    refine ⟨unique, state.imp (fun done => ⟨done.1, mt (parked_update parked c).mp done.2⟩) ?_⟩
    rintro ⟨u, cs, wakes, mem⟩
    have away : u ≠ t := fun same => by
      rw [drained w cs (same ▸ wakes)] at mem
      cases mem
    exact ⟨u, cs, (Function.update_of_ne away ..).trans wakes, mem⟩
  · dsimp only at awake
    by_cases self : u = t
    · rw [self, Function.update_self] at awake
      exact absurd awake (notAwake c)
    · rw [Function.update_of_ne self] at awake
      exact inv.awake u c awake

/-- No call that is waited in is the caller's own while it is outside. -/
theorem caller_ne (idle : s.pc t = .idle) (parked : s.Parked c) : s.caller c ≠ t := fun same => by
  rw [State.Parked, same, idle] at parked
  cases parked

theorem Inv.wait (inv : Inv s) (idle : s.pc t = .idle) (cv : Cv) : Inv (s.wait t cv) := by
  have old (c : Call) (early : c < s.calls) : (s.wait t cv).caller c = s.caller c :=
    Function.update_of_ne (Nat.ne_of_lt early) ..
  have new : (s.wait t cv).caller s.calls = t := Function.update_self ..
  have stays (u : Thread) (other : u ≠ t) : (s.wait t cv).pc u = s.pc u :=
    Function.update_of_ne other ..
  have own : (s.wait t cv).pc t = .registered s.calls := Function.update_self ..
  have waits (c : Call) (waits : s.Waits c) : (s.wait t cv).Waits c := by
    refine ⟨?_, waits.fresh, Nat.lt_succ_of_lt waits.early⟩
    rw [State.Parked, old c waits.early, stays _ (caller_ne idle waits.parked)]
    exact waits.parked
  have parked (c : Call) (early : c < s.calls) (parked : (s.wait t cv).Parked c) : s.Parked c := by
    rw [State.Parked, old c early] at parked
    by_cases self : s.caller c = t
    · rw [self, own] at parked
      exact absurd (Option.some.inj parked).symm (Nat.ne_of_lt early)
    · rwa [stays _ self] at parked
  have early (w : Wake) (c : Call) (mem : c ∈ s.taken w) : c < s.calls :=
    Nat.lt_of_lt_of_le (inv.early mem) (inv.found w).2.2
  have untaken (w : Wake) : s.calls ∉ s.taken w := fun mem => Nat.lt_irrefl _ (early w _ mem)
  have newWaits : (s.wait t cv).Waits s.calls := by
    refine ⟨?_, ?_, Nat.lt_succ_self _⟩
    · rw [State.Parked, new, own]
      rfl
    · refine List.eq_nil_iff_forall_not_mem.mpr fun w woke => untaken w (inv.woken _ w woke)
  have wakes {u : Thread} {w : Wake} {cs : List Call} (wakes : (s.wait t cv).pc u = .wakes w cs) :
      s.pc u = .wakes w cs := by
    by_cases self : u = t
    · rw [self, own] at wakes
      cases wakes
    · rwa [stays u self] at wakes
  have mem_lists (cv' : Cv) (c : Call) (mem : c ∈ (s.wait t cv).lists cv') :
      c ∈ s.lists cv' ∨ c = s.calls ∧ cv' = cv := by
    by_cases self : cv' = cv
    · rw [self] at mem ⊢
      rw [show (s.wait t cv).lists cv = _ from Function.update_self ..] at mem
      exact (List.mem_append.mp mem).imp_right fun last => ⟨List.mem_singleton.mp last, rfl⟩
    · rw [show (s.wait t cv).lists cv' = _ from Function.update_of_ne self ..] at mem
      exact .inl mem
  have lists_mem (cv' : Cv) (c : Call) (mem : c ∈ s.lists cv') : c ∈ (s.wait t cv).lists cv' := by
    by_cases self : cv' = cv
    · rw [self] at mem ⊢
      rw [show (s.wait t cv).lists cv = _ from Function.update_self ..]
      exact List.mem_append_left _ mem
    · rwa [show (s.wait t cv).lists cv' = _ from Function.update_of_ne self ..]
  have notListed (cv' : Cv) : s.calls ∉ s.lists cv' := fun mem =>
    Nat.lt_irrefl _ (inv.listed cv' _ mem).1.early
  refine ⟨fun u c called => ?_, fun cv' => ?_, fun cv' c mem => ?_, fun cv₁ cv₂ c mem mem' => ?_,
    fun u w cs pc => ?_, fun u u' w cs cs' pc pc' => inv.alone u u' w cs cs' (wakes pc) (wakes pc'),
    fun w => ?_, inv.later, fun w c mem => ?_, inv.woken, fun u c awake => ?_, inv.returned,
    fun c lt => ?_⟩
  · by_cases self : u = t
    · rw [self, own] at called
      rw [← Option.some.inj called, new, self]
      exact ⟨rfl, Nat.lt_succ_self _⟩
    · rw [stays u self] at called
      obtain ⟨caller, lt⟩ := inv.caller u c called
      rw [old c lt]
      exact ⟨caller, Nat.lt_succ_of_lt lt⟩
  · by_cases self : cv' = cv
    · rw [self, show (s.wait t cv).lists cv = _ from Function.update_self ..]
      refine List.pairwise_append.mpr ⟨inv.ordered cv, List.pairwise_singleton .., ?_⟩
      intro c mem c' last
      rw [List.mem_singleton.mp last]
      exact (inv.listed cv c mem).1.early
    · rw [show (s.wait t cv).lists cv' = _ from Function.update_of_ne self ..]
      exact inv.ordered cv'
  · rcases mem_lists cv' c mem with mem | ⟨rfl, -⟩
    · exact ⟨waits c (inv.listed cv' c mem).1, (inv.listed cv' c mem).2⟩
    · exact ⟨newWaits, untaken⟩
  · rcases mem_lists cv₁ c mem with mem | ⟨rfl, rfl⟩
    · rcases mem_lists cv₂ c mem' with mem' | ⟨rfl, -⟩
      · exact inv.apart cv₁ cv₂ c mem mem'
      · exact absurd mem (notListed cv₁)
    · rcases mem_lists cv₂ _ mem' with mem' | ⟨-, rfl⟩
      · exact absurd mem' (notListed cv₂)
      · rfl
  · obtain ⟨lt, on, nodup, each⟩ := inv.waking u w cs (wakes pc)
    exact ⟨lt, on, nodup, fun c mem => ⟨waits c (each c mem).1, (each c mem).2⟩⟩
  · exact ⟨(inv.found w).1, (inv.found w).2.1, Nat.le_succ_of_le (inv.found w).2.2⟩
  · obtain ⟨unique, state⟩ := inv.taken w c mem
    refine ⟨unique, state.imp (fun done => ⟨done.1, mt (parked c (early w c mem)) done.2⟩) ?_⟩
    rintro ⟨u, cs, pc, mem⟩
    refine ⟨u, cs, ?_, mem⟩
    have away : u ≠ t := fun same => by
      rw [same, idle] at pc
      cases pc
    rw [stays u away]
    exact pc
  · by_cases self : u = t
    · rw [self, own] at awake
      cases awake
    · rw [stays u self] at awake
      exact inv.awake u c awake
  · rcases Nat.lt_succ_iff_lt_or_eq.mp lt with lt | rfl
    · exact (inv.kept c lt).imp_left fun ⟨cv', mem⟩ => ⟨cv', lists_mem cv' c mem⟩
    · refine .inl ⟨cv, ?_⟩
      rw [show (s.wait t cv).lists cv = _ from Function.update_self ..]
      exact List.mem_append_right _ (List.mem_singleton_self _)

/-- What is taken off a list, and what is left. -/
theorem taken_append (s : State) (cv : Cv) (broadcast : Bool) :
    Found.taken ⟨broadcast, s.lists cv, s.calls⟩ ++
      (if broadcast then [] else (s.lists cv).drop 1) = s.lists cv := by
  cases broadcast with
  | true => exact List.append_nil _
  | false => exact List.take_append_drop 1 _

theorem Inv.take (inv : Inv s) (idle : s.pc t = .idle) (cv : Cv) (broadcast : Bool) :
    Inv (s.take t cv broadcast) := by
  have whole := taken_append s cv broadcast
  have taken (w : Wake) : (s.take t cv broadcast).taken w =
      if w = s.wakes then Found.taken ⟨broadcast, s.lists cv, s.calls⟩ else s.taken w := by
    by_cases self : w = s.wakes
    · rw [if_pos self, self]
      exact congrArg Found.taken (Function.update_self ..)
    · rw [if_neg self]
      exact congrArg Found.taken (Function.update_of_ne self ..)
  have lists (cv' : Cv) : (s.take t cv broadcast).lists cv' =
      if cv' = cv then (if broadcast then [] else (s.lists cv).drop 1) else s.lists cv' :=
    Function.update_apply ..
  have own : (s.take t cv broadcast).pc t =
      .wakes s.wakes (Found.taken ⟨broadcast, s.lists cv, s.calls⟩) := Function.update_self ..
  have stays (u : Thread) (other : u ≠ t) : (s.take t cv broadcast).pc u = s.pc u :=
    Function.update_of_ne other ..
  generalize Found.taken ⟨broadcast, s.lists cv, s.calls⟩ = cs at whole taken own
  generalize (if broadcast then [] else (s.lists cv).drop 1) = rest at whole lists
  have parked (c : Call) : (s.take t cv broadcast).Parked c ↔ s.Parked c := by
    have same : (Pc.wakes s.wakes (Found.taken ⟨broadcast, s.lists cv, s.calls⟩)).parked =
        (s.pc t).parked := by
      rw [idle]
      rfl
    exact parked_update same c
  have waits (c : Call) (waits : s.Waits c) : (s.take t cv broadcast).Waits c :=
    ⟨(parked c).mpr waits.parked, waits.fresh, waits.early⟩
  have nodup : (cs ++ rest).Nodup := whole ▸ (inv.ordered cv).imp Nat.ne_of_lt
  have fromList (c : Call) (mem : c ∈ cs) : c ∈ s.lists cv := whole ▸ List.mem_append_left _ mem
  have fewer (cv' : Cv) (c : Call) (mem : c ∈ (s.take t cv broadcast).lists cv') :
      c ∈ s.lists cv' ∧ c ∉ cs := by
    rw [lists] at mem
    split at mem
    · rename_i self
      rw [self, ← whole]
      exact ⟨List.mem_append_right _ mem,
        fun taken => (List.nodup_append.mp nodup).2.2 c taken c mem rfl⟩
    · rename_i other
      exact ⟨mem, fun taken => other (inv.apart cv' cv c mem (fromList c taken))⟩
  have none (w : Wake) (late : s.wakes ≤ w) (c : Call) : c ∉ s.taken w := fun mem => by
    have mem := taken_subset _ c mem
    rw [(inv.later w late).1] at mem
    cases mem
  have mem_taken (w : Wake) (c : Call) (mem : c ∈ (s.take t cv broadcast).taken w) :
      w = s.wakes ∧ c ∈ cs ∨ w ≠ s.wakes ∧ c ∈ s.taken w := by
    rw [taken] at mem
    split at mem
    · exact .inl ⟨‹_›, mem⟩
    · exact .inr ⟨‹_›, mem⟩
  have taken_mem (w : Wake) (c : Call) (mem : c ∈ s.taken w) :
      c ∈ (s.take t cv broadcast).taken w := by
    rw [taken, if_neg fun same => none w (Nat.le_of_eq same.symm) c mem]
    exact mem
  have untaken (w : Wake) (c : Call) (mem : c ∈ cs) : c ∉ s.taken w :=
    (inv.listed cv c (fromList c mem)).2 w
  have pcs {u : Thread} {w : Wake} {cs' : List Call}
      (pc : (s.take t cv broadcast).pc u = .wakes w cs') :
      u = t ∧ w = s.wakes ∧ cs' = cs ∨ u ≠ t ∧ s.pc u = .wakes w cs' := by
    by_cases self : u = t
    · rw [self, own] at pc
      cases pc
      exact .inl ⟨self, rfl, rfl⟩
    · rw [stays u self] at pc
      exact .inr ⟨self, pc⟩
  refine ⟨fun u c called => ?_, fun cv' => ?_, fun cv' c mem => ?_, fun cv₁ cv₂ c mem mem' => ?_,
    fun u w cs' pc => ?_, fun u u' w cs₁ cs₂ pc pc' => ?_, fun w => ?_, fun w late => ?_,
    fun w c mem => ?_, fun c w woke => taken_mem w c (inv.woken c w woke), fun u c awake => ?_,
    inv.returned, fun c lt => ?_⟩
  · by_cases self : u = t
    · rw [self, own] at called
      cases called
    · rw [stays u self] at called
      exact inv.caller u c called
  · rw [lists]
    split
    · exact (List.pairwise_append.mp (whole.symm ▸ inv.ordered cv)).2.1
    · exact inv.ordered cv'
  · obtain ⟨mem, out⟩ := fewer cv' c mem
    obtain ⟨waiting, untaken⟩ := inv.listed cv' c mem
    refine ⟨waits c waiting, fun w mem => ?_⟩
    rcases mem_taken w c mem with ⟨-, mem⟩ | ⟨-, mem⟩
    · exact out mem
    · exact untaken w mem
  · exact inv.apart cv₁ cv₂ c (fewer cv₁ c mem).1 (fewer cv₂ c mem').1
  · rcases pcs pc with ⟨-, rfl, rfl⟩ | ⟨-, pc⟩
    · refine ⟨Nat.lt_succ_self _, (inv.later _ (Nat.le_refl _)).2, (List.nodup_append.mp nodup).1,
        fun c mem => ⟨waits c (inv.listed cv c (fromList c mem)).1, ?_⟩⟩
      rw [taken, if_pos rfl]
      exact mem
    · obtain ⟨lt, on, nodup, each⟩ := inv.waking u w cs' pc
      exact ⟨Nat.lt_succ_of_lt lt, on, nodup,
        fun c mem => ⟨waits c (each c mem).1, taken_mem w c (each c mem).2⟩⟩
  · rcases pcs pc with ⟨self, new, -⟩ | ⟨-, pc⟩
    · rcases pcs pc' with ⟨self', -⟩ | ⟨-, pc'⟩
      · exact self.trans self'.symm
      · exact absurd (inv.waking u' w cs₂ pc').1 (Nat.not_lt_of_le (Nat.le_of_eq new.symm))
    · rcases pcs pc' with ⟨-, new, -⟩ | ⟨-, pc'⟩
      · exact absurd (inv.waking u w cs₁ pc).1 (Nat.not_lt_of_le (Nat.le_of_eq new.symm))
      · exact inv.alone u u' w cs₁ cs₂ pc pc'
  · by_cases self : w = s.wakes
    · rw [self, show (s.take t cv broadcast).found s.wakes = _ from Function.update_self ..]
      exact ⟨inv.ordered cv, fun c mem => (inv.listed cv c mem).1.early, Nat.le_refl _⟩
    · rw [show (s.take t cv broadcast).found w = _ from Function.update_of_ne self ..]
      exact inv.found w
  · have self : w ≠ s.wakes := (Nat.ne_of_lt late).symm
    rw [show (s.take t cv broadcast).found w = _ from Function.update_of_ne self ..]
    exact inv.later w (Nat.le_of_lt late)
  · rcases mem_taken w c mem with ⟨new, inCs⟩ | ⟨-, mem⟩
    · refine ⟨fun w' mem' => ?_, .inr ⟨t, cs, new ▸ own, inCs⟩⟩
      rcases mem_taken w' c mem' with ⟨same, -⟩ | ⟨-, mem'⟩
      · exact same.trans new.symm
      · exact absurd mem' (untaken w' c inCs)
    · obtain ⟨unique, state⟩ := inv.taken w c mem
      refine ⟨fun w' mem' => ?_,
        state.imp (fun done => ⟨done.1, mt (parked c).mp done.2⟩) fun ⟨u, cs', pc, mem⟩ => ?_⟩
      · rcases mem_taken w' c mem' with ⟨-, inCs⟩ | ⟨-, mem'⟩
        · exact absurd mem (untaken w c inCs)
        · exact unique w' mem'
      · have away : u ≠ t := fun same => by
          rw [same, idle] at pc
          cases pc
        exact ⟨u, cs', (stays u away).trans pc, mem⟩
  · by_cases self : u = t
    · rw [self, own] at awake
      cases awake
    · rw [stays u self] at awake
      exact inv.awake u c awake
  · rcases inv.kept c lt with ⟨cv', mem⟩ | ⟨w, mem⟩
    · by_cases self : cv' = cv
      · rw [self, ← whole] at mem
        rcases List.mem_append.mp mem with mem | mem
        · refine .inr ⟨s.wakes, ?_⟩
          rw [taken, if_pos rfl]
          exact mem
        · refine .inl ⟨cv, ?_⟩
          rw [lists, if_pos rfl]
          exact mem
      · refine .inl ⟨cv', ?_⟩
        rw [lists, if_neg self]
        exact mem
    · exact .inr ⟨w, taken_mem w c mem⟩

/-- `make_runnable` reaches the call that it is for: the thread has descheduled in no other. -/
theorem Inv.makeRunnable (inv : Inv s) {cs : List Call} (pc : s.pc t = .wakes w (c :: cs))
    (down : s.pc (s.caller c) = .descheduled c) : Inv (s.makeRunnable t w c cs) := by
  obtain ⟨lt, on, nodup, each⟩ := inv.waking t w (c :: cs) pc
  obtain ⟨waiting, mem⟩ := each c List.mem_cons_self
  have out : c ∉ cs := (List.nodup_cons.mp nodup).1
  have apart : s.caller c ≠ t := fun same => by
    rw [same, pc] at down
    cases down
  have eq : s.makeRunnable t w c cs =
      { s with
        pc := Function.update (Function.update s.pc (s.caller c) (.awake c)) t (.wakes w cs)
        wokenBy := Function.update s.wokenBy c (s.wokenBy c ++ [w]) } := by
    rw [State.makeRunnable, down]
  rw [eq]
  generalize new : Function.update (Function.update s.pc (s.caller c) (.awake c)) t
    (.wakes w cs) = pc'
  have own : pc' t = .wakes w cs := new ▸ Function.update_self ..
  have woke : pc' (s.caller c) = .awake c := by
    rw [← new, Function.update_of_ne apart, Function.update_self]
  have stays (u : Thread) (other : u ≠ t) (other' : u ≠ s.caller c) : pc' u = s.pc u := by
    rw [← new, Function.update_of_ne other, Function.update_of_ne other']
  have once : Function.update s.wokenBy c (s.wokenBy c ++ [w]) c = [w] := by
    rw [Function.update_self, waiting.fresh, List.nil_append]
  have others (c' : Call) (other : c' ≠ c) :
      Function.update s.wokenBy c (s.wokenBy c ++ [w]) c' = s.wokenBy c' :=
    Function.update_of_ne other ..
  generalize Function.update s.wokenBy c (s.wokenBy c ++ [w]) = wokenBy at once others
  -- a call that is parked now was parked before, and is not the one that is woken
  have parked (c' : Call) : (pc' (s.caller c')).parked = some c' ↔ s.Parked c' ∧ c' ≠ c := by
    rw [State.Parked]
    by_cases self : s.caller c' = t
    · rw [self, own, pc]
      exact ⟨fun h => (nomatch h), fun h => (nomatch h.1)⟩
    · by_cases same : s.caller c' = s.caller c
      · rw [same, woke, down]
        exact ⟨fun h => (nomatch h), fun ⟨h, other⟩ => absurd (Option.some.inj h).symm other⟩
      · rw [stays _ self same]
        exact (and_iff_left fun eq => same (congrArg s.caller eq)).symm
  have waits (c' : Call) (other : c' ≠ c) (waits : s.Waits c') :
      State.Waits { s with pc := pc', wokenBy := wokenBy } c' :=
    ⟨(parked c').mpr ⟨waits.parked, other⟩, (others c' other).trans waits.fresh, waits.early⟩
  have pcs {u : Thread} {w' : Wake} {cs' : List Call} (at' : pc' u = .wakes w' cs') :
      u = t ∧ w' = w ∧ cs' = cs ∨ u ≠ t ∧ s.pc u = .wakes w' cs' := by
    by_cases self : u = t
    · rw [self, own] at at'
      cases at'
      exact .inl ⟨self, rfl, rfl⟩
    · by_cases same : u = s.caller c
      · rw [same, woke] at at'
        cases at'
      · exact .inr ⟨self, stays u self same ▸ at'⟩
  have elsewhere {u : Thread} {w' : Wake} {cs' : List Call} (other : u ≠ t)
      (at' : s.pc u = .wakes w' cs') : w' ≠ w := fun same =>
    other (inv.alone u t w cs' (c :: cs) (same ▸ at') pc)
  refine ⟨fun u c' called => ?_, inv.ordered, fun cv c' listed => ?_, inv.apart,
    fun u w' cs' at' => ?_, fun u u' w' cs₁ cs₂ at₁ at₂ => ?_, inv.found, inv.later,
    fun w' c' taken => ?_, fun c' w' by' => ?_, fun u c' awake => ?_, fun c' back => ?_, inv.kept⟩
  · dsimp only at called
    by_cases self : u = t
    · rw [self, own] at called
      cases called
    · by_cases same : u = s.caller c
      · rw [same, woke] at called
        obtain rfl := Option.some.inj called
        exact ⟨same.symm, waiting.early⟩
      · rw [stays u self same] at called
        exact inv.caller u c' called
  · obtain ⟨waits', untaken⟩ := inv.listed cv c' listed
    exact ⟨waits c' (fun same => untaken w (same ▸ mem)) waits', untaken⟩
  · rcases pcs at' with ⟨-, rfl, rfl⟩ | ⟨other, at'⟩
    · refine ⟨lt, on, (List.nodup_cons.mp nodup).2, fun c' inCs => ?_⟩
      obtain ⟨waits', taken⟩ := each c' (List.mem_cons_of_mem c inCs)
      exact ⟨waits c' (fun same => out (same ▸ inCs)) waits', taken⟩
    · obtain ⟨lt', on', nodup', each'⟩ := inv.waking u w' cs' at'
      refine ⟨lt', on', nodup', fun c' inCs => ?_⟩
      obtain ⟨waits', taken⟩ := each' c' inCs
      refine ⟨waits c' (fun same => ?_) waits', taken⟩
      exact elsewhere other at' ((inv.taken w c mem).1 w' (same ▸ taken))
  · rcases pcs at₁ with ⟨self, same, -⟩ | ⟨other, at₁⟩
    · rcases pcs at₂ with ⟨self', -⟩ | ⟨other', at₂⟩
      · exact self.trans self'.symm
      · exact absurd same (elsewhere other' at₂)
    · rcases pcs at₂ with ⟨-, same, -⟩ | ⟨-, at₂⟩
      · exact absurd same (elsewhere other at₁)
      · exact inv.alone u u' w' cs₁ cs₂ at₁ at₂
  · obtain ⟨unique, state⟩ := inv.taken w' c' taken
    refine ⟨unique, ?_⟩
    by_cases same : c' = c
    · refine .inl ⟨?_, fun h => ((parked c').mp h).2 same⟩
      rw [same] at taken ⊢
      rw [(inv.taken w c mem).1 w' taken]
      exact once
    · rcases state with ⟨done, up⟩ | ⟨u, cs', at', inCs⟩
      · exact .inl ⟨(others c' same).trans done, fun h => up ((parked c').mp h).1⟩
      · refine .inr ?_
        by_cases self : u = t
        · rw [self, pc] at at'
          cases at'
          exact ⟨t, cs, own, (List.mem_cons.mp inCs).resolve_left same⟩
        · have stay : u ≠ s.caller c := fun eq => by
            rw [eq, down] at at'
            cases at'
          exact ⟨u, cs', (stays u self stay).trans at', inCs⟩
  · dsimp only at by'
    by_cases same : c' = c
    · rw [same] at by' ⊢
      rw [once, List.mem_singleton] at by'
      exact by' ▸ mem
    · rw [others c' same] at by'
      exact inv.woken c' w' by'
  · dsimp only at awake ⊢
    by_cases self : u = t
    · rw [self, own] at awake
      cases awake
    · by_cases same : u = s.caller c
      · rw [same, woke] at awake
        cases awake
        exact ⟨w, once⟩
      · rw [stays u self same] at awake
        obtain ⟨w', woken⟩ := inv.awake u c' awake
        have other : c' ≠ c := fun eq => by
          rw [eq, waiting.fresh] at woken
          cases woken
        exact ⟨w', (others c' other).trans woken⟩
  · have other : c' ≠ c := fun same => by
      obtain ⟨w', woken⟩ := inv.returned c' back
      rw [same, waiting.fresh] at woken
      cases woken
    obtain ⟨w', woken⟩ := inv.returned c' back
    exact ⟨w', (others c' other).trans woken⟩

theorem Inv.finish (inv : Inv s) (pc : s.pc t = .wakes w []) :
    Inv { s with pc := Function.update s.pc t .idle, finished := s.finished ++ [w] } := by
  have gone : Inv { s with pc := Function.update s.pc t .idle } := by
    refine inv.goto (by rw [pc]; rfl) (fun c call => ?_) (fun c => nofun) (fun w cs => nofun) ?_
    · cases call
    · intro w' cs pc'
      rw [pc] at pc'
      cases pc'
      rfl
  refine { gone with
    listed := fun cv c mem => ⟨(gone.listed cv c mem).1.log _ _, (gone.listed cv c mem).2⟩
    waking := fun u w' cs pc' => ?_
    later := fun w' late => ?_ }
  · obtain ⟨lt, on, nodup, each⟩ := gone.waking u w' cs pc'
    refine ⟨lt, fun ends => ?_, nodup, fun c mem => ⟨(each c mem).1.log _ _, (each c mem).2⟩⟩
    rcases List.mem_append.mp ends with ends | last
    · exact on ends
    · dsimp only at pc'
      by_cases self : u = t
      · rw [self, Function.update_self] at pc'
        cases pc'
      · rw [Function.update_of_ne self, List.mem_singleton.mp last] at pc'
        exact self (inv.alone u t w cs [] pc' pc)
  · refine ⟨(inv.later w' late).1, fun ends => ?_⟩
    rcases List.mem_append.mp ends with ends | last
    · exact (inv.later w' late).2 ends
    · rw [List.mem_singleton.mp last] at late
      exact Nat.not_lt_of_le late (inv.waking t w [] pc).1

theorem Inv.waitReturns (inv : Inv s) (pc : s.pc t = .awake c) :
    Inv { s with pc := Function.update s.pc t .idle, returned := s.returned ++ [c] } := by
  have gone : Inv { s with pc := Function.update s.pc t .idle } := by
    refine inv.goto (by rw [pc]; rfl) (fun c call => ?_) (fun c => nofun) (fun w cs => nofun) ?_
    · cases call
    · intro w cs pc'
      rw [pc] at pc'
      cases pc'
  refine { gone with
    listed := fun cv c mem => ⟨(gone.listed cv c mem).1.log _ _, (gone.listed cv c mem).2⟩
    waking := fun u w cs pc' => ?_
    returned := fun c' back => ?_ }
  · obtain ⟨lt, on, nodup, each⟩ := gone.waking u w cs pc'
    exact ⟨lt, on, nodup, fun c mem => ⟨(each c mem).1.log _ _, (each c mem).2⟩⟩
  rcases List.mem_append.mp back with back | last
  · exact inv.returned c' back
  · rw [List.mem_singleton.mp last]
    exact inv.awake t c pc

theorem Inv.step (inv : Inv s) (input : Input) : Inv (s.step input) := by
  cases input with
  | wait t cv =>
      unfold State.step
      dsimp only
      split
      · exact inv.wait ‹_› cv
      · exact inv
  | deschedule t =>
      unfold State.step
      dsimp only
      split
      · rename_i c pc
        refine inv.goto (by rw [pc]; rfl) (fun c' call => ?_) (fun c => nofun)
          (fun w cs => nofun) ?_
        · rw [pc]
          exact call
        · intro w cs pc'
          rw [pc] at pc'
          cases pc'
      · exact inv
  | waitReturns t =>
      unfold State.step
      dsimp only
      split
      · exact inv.waitReturns ‹_›
      · exact inv
  | signal t cv =>
      unfold State.step
      dsimp only
      split
      · exact inv.take ‹_› cv false
      · exact inv
  | broadcast t cv =>
      unfold State.step
      dsimp only
      split
      · exact inv.take ‹_› cv true
      · exact inv
  | goOn t =>
      unfold State.step
      dsimp only
      split
      · rename_i w c cs pc
        have parked := ((inv.waking t w (c :: cs) pc).2.2.2 c List.mem_cons_self).1.parked
        rw [State.Parked] at parked
        cases at' : s.pc (s.caller c) with
        | descheduled c' =>
            rw [at'] at parked
            exact inv.makeRunnable pc (at'.trans (congrArg Pc.descheduled (Option.some.inj parked)))
        | _ =>
            unfold State.makeRunnable
            rw [at']
            exact inv
      · exact inv.finish ‹_›
      · exact inv

/-! ### What follows a signal or a broadcast -/

/-- The next `make_runnable` succeeds, once its caller is descheduled. -/
theorem Inv.wakesNext (inv : Inv s) {cs : List Call} (pc : s.pc t = .wakes w (c :: cs)) :
    ∃ more, (run State.step s more).pc t = .wakes w cs := by
  have parked := ((inv.waking t w (c :: cs) pc).2.2.2 c List.mem_cons_self).1.parked
  rw [State.Parked] at parked
  have other : s.caller c ≠ t := by
    intro same
    rw [same, pc] at parked
    cases parked
  have wakes : ∀ {s : State}, s.pc t = .wakes w (c :: cs) → s.pc (s.caller c) = .descheduled c →
      (s.step (.goOn t)).pc t = .wakes w cs := by
    intro s pc down
    simp [State.step, pc, State.makeRunnable, down]
  cases at' : s.pc (s.caller c) with
  | registered c' =>
      rw [at'] at parked
      cases Option.some.inj parked
      refine ⟨[.deschedule (s.caller c), .goOn t], ?_⟩
      have down : s.step (.deschedule (s.caller c)) =
          { s with pc := Function.update s.pc (s.caller c) (.descheduled c) } := by
        simp [State.step, at']
      rw [run_cons, run_cons, run_nil, down]
      refine wakes ?_ (Function.update_self ..)
      rw [← pc]
      exact Function.update_of_ne (Ne.symm other) ..
  | descheduled c' =>
      rw [at'] at parked
      cases Option.some.inj parked
      exact ⟨[.goOn t], wakes pc at'⟩
  | idle | awake | wakes =>
      rw [at'] at parked
      cases parked

theorem Inv.finishes (inv : Inv s) {cs : List Call} (pc : s.pc t = .wakes w cs) :
    ∃ more, (run State.step s more).pc t = .idle := by
  induction cs generalizing s with
  | nil =>
      refine ⟨[.goOn t], ?_⟩
      simp [State.step, pc]
  | cons c cs ih =>
      obtain ⟨first, pc'⟩ := inv.wakesNext pc
      obtain ⟨rest, back⟩ := ih (run_invariant (fun _ input inv => inv.step input) inv first) pc'
      refine ⟨first ++ rest, ?_⟩
      rw [run_append]
      exact back

theorem Inv.exact (inv : Inv s) : Exact s := by
  refine ⟨fun c back => ?_, fun w => (inv.found w).1, fun w ends c mem => ?_, fun c w woke => ?_,
    inv.kept, fun w c mem cv listed => (inv.listed cv c listed).2 w mem, inv.ordered,
    fun t w cs pc => inv.finishes pc⟩
  · obtain ⟨w, woken⟩ := inv.returned c back
    have mem := inv.woken c w (woken ▸ List.mem_singleton_self w)
    exact ⟨w, woken, fun w' => ⟨(inv.taken w c mem).1 w', fun same => same ▸ mem⟩⟩
  · rcases (inv.taken w c mem).2 with done | ⟨t, cs, pc, -⟩
    · exact done
    · exact absurd ends (inv.waking t w cs pc).2.1
  · have mem := inv.woken c w woke
    exact ⟨mem, inv.early mem⟩

/-- The `w`-th call has found what it has found, and nobody but `t` wakes for it. -/
structure State.Serves (s : State) (t : Thread) (w : Wake) (found : Found) : Prop where
  issued : w < s.wakes
  same : s.found w = found
  server : ∀ u cs, s.pc u = .wakes w cs → u = t

/-- Whoever wakes for a call after a step did so before it, unless the call is new. -/
theorem wakes_back {input : Input} {u : Thread} {cs : List Call} (issued : w < s.wakes)
    (pc : (s.step input).pc u = .wakes w cs) : ∃ cs', s.pc u = .wakes w cs' := by
  have update {v : Thread} {pc' : Pc} (pc : Function.update s.pc v pc' u = .wakes w cs)
      (notWakes : ∀ cs', pc' ≠ .wakes w cs') : ∃ cs', s.pc u = .wakes w cs' := by
    by_cases self : u = v
    · rw [self, Function.update_self] at pc
      exact absurd pc (notWakes cs)
    · rw [Function.update_of_ne self] at pc
      exact ⟨cs, pc⟩
  have taking {v : Thread} {calls : List Call}
      (pc : Function.update s.pc v (.wakes s.wakes calls) u = .wakes w cs) :
      ∃ cs', s.pc u = .wakes w cs' := by
    refine update pc fun cs' same => ?_
    cases same
    exact Nat.lt_irrefl _ issued
  cases input with
  | wait v cv =>
      unfold State.step at pc
      dsimp only at pc
      split at pc
      · exact update pc fun _ => nofun
      · exact ⟨cs, pc⟩
  | deschedule v | waitReturns v =>
      unfold State.step at pc
      dsimp only at pc
      split at pc
      · exact update pc fun _ => nofun
      · exact ⟨cs, pc⟩
  | signal v cv | broadcast v cv =>
      unfold State.step at pc
      dsimp only at pc
      split at pc
      · exact taking pc
      · exact ⟨cs, pc⟩
  | goOn v =>
      unfold State.step at pc
      dsimp only at pc
      split at pc
      · rename_i w' c calls at'
        unfold State.makeRunnable at pc
        split at pc
        · dsimp only at pc
          by_cases self : u = v
          · rw [self, Function.update_self] at pc
            cases pc
            exact ⟨c :: cs, self ▸ at'⟩
          · rw [Function.update_of_ne self] at pc
            exact update pc fun _ => nofun
        · exact ⟨cs, pc⟩
      · exact update pc fun _ => nofun
      · exact ⟨cs, pc⟩

theorem found_step (input : Input) (issued : w < s.wakes) :
    (s.step input).found w = s.found w ∧ s.wakes ≤ (s.step input).wakes := by
  have new (found : Found) : Function.update s.found s.wakes found w = s.found w :=
    Function.update_of_ne (Nat.ne_of_lt issued) ..
  unfold State.step
  split
  · split
    · exact ⟨rfl, Nat.le_refl _⟩
    · exact ⟨rfl, Nat.le_refl _⟩
  · split
    · exact ⟨rfl, Nat.le_refl _⟩
    · exact ⟨rfl, Nat.le_refl _⟩
  · split
    · exact ⟨rfl, Nat.le_refl _⟩
    · exact ⟨rfl, Nat.le_refl _⟩
  · split
    · exact ⟨new _, Nat.le_succ _⟩
    · exact ⟨rfl, Nat.le_refl _⟩
  · split
    · exact ⟨new _, Nat.le_succ _⟩
    · exact ⟨rfl, Nat.le_refl _⟩
  · split
    · unfold State.makeRunnable
      split <;> exact ⟨rfl, Nat.le_refl _⟩
    · exact ⟨rfl, Nat.le_refl _⟩
    · exact ⟨rfl, Nat.le_refl _⟩

theorem State.Serves.step {found : Found} (serves : s.Serves t w found) (input : Input) :
    (s.step input).Serves t w found := by
  obtain ⟨same, later⟩ := found_step input serves.issued
  refine ⟨Nat.lt_of_lt_of_le serves.issued later, same.trans serves.same, fun u cs pc => ?_⟩
  obtain ⟨cs', before⟩ := wakes_back serves.issued pc
  exact serves.server u cs' before

theorem step_wakeUp (idle : s.pc t = .idle) (cv : Cv) (broadcast : Bool) :
    s.step (.wakeUp t cv broadcast) = s.take t cv broadcast := by
  cases broadcast with
  | true => exact if_pos idle
  | false => exact if_pos idle

theorem Inv.serves_take (inv : Inv s) (cv : Cv) (broadcast : Bool) :
    (s.take t cv broadcast).Serves t s.wakes ⟨broadcast, s.lists cv, s.calls⟩ := by
  refine ⟨Nat.lt_succ_self _, Function.update_self .., fun u cs pc => ?_⟩
  by_contra other
  rw [show (s.take t cv broadcast).pc u = s.pc u from Function.update_of_ne other ..] at pc
  exact Nat.lt_irrefl _ (inv.waking u _ cs pc).1

theorem Inv.answered (inv : Inv s) (idle : s.pc t = .idle) (cv : Cv) (broadcast : Bool)
    (later : List Input) : Answered s t cv broadcast later := by
  have took := step_wakeUp idle cv broadcast
  obtain ⟨inv', serves⟩ := run_invariant
    (P := fun s' => Inv s' ∧ State.Serves s' t s.wakes ⟨broadcast, s.lists cv, s.calls⟩)
    (fun s' input h => ⟨h.1.step input, h.2.step input⟩)
    ⟨took ▸ inv.step (.wakeUp t cv broadcast), inv.serves_take cv broadcast⟩ later
  have taken : State.taken (run State.step (s.take t cv broadcast) later) s.wakes =
      if broadcast then s.lists cv else (s.lists cv).take 1 := congrArg Found.taken serves.same
  refine ⟨?_, fun c woke => ?_, fun back c mem => ?_⟩ <;> rw [took] at *
  · rfl
  · rw [← taken]
    exact inv'.woken c _ woke
  · rw [← taken] at mem
    rcases (inv'.taken _ c mem).2 with done | ⟨u, cs, pc, -⟩
    · exact done
    · -- only `t` could still have to wake it, and `t` has returned
      rw [serves.server u cs pc, back] at pc
      cases pc

end

theorem inv_init : Inv .init where
  caller _ _ := nofun
  ordered _ := .nil
  listed _ _ := nofun
  apart _ _ _ := nofun
  waking _ _ _ := nofun
  alone _ _ _ _ _ := nofun
  found _ := ⟨.nil, nofun, Nat.le_refl _⟩
  later _ _ := ⟨rfl, nofun⟩
  taken _ _ := nofun
  woken _ _ := nofun
  awake _ _ := nofun
  returned _ := nofun
  kept _ := nofun

/-- No run loses or invents a wake-up, and every signal and broadcast of a run wakes
those whose entries it has removed. -/
theorem wakeups_exact (inputs : List Input) : Along State.step Exact .init inputs ∧
    ∀ t cv broadcast later, (run State.step .init inputs).pc t = .idle →
      Answered (run State.step .init inputs) t cv broadcast later := by
  refine ⟨(along_of_invariant (fun _ input inv => inv.step input) inv_init inputs).mono
    fun _ inv => inv.exact, fun t cv broadcast later idle => ?_⟩
  exact (run_invariant (fun _ input inv => inv.step input) inv_init inputs).answered idle cv
    broadcast later

/-- Two threads wait and a third signals; its first `make_runnable` comes before
`deschedule`. The older waiter is woken and returns, the other one stays. -/
theorem wakeups_exact_two :
    let s := run State.step .init [.wait 0 7, .wait 1 7]
    let s' := run State.step (s.step (.wakeUp 2 7 false))
      [.goOn 2, .deschedule 0, .goOn 2, .goOn 2, .deschedule 1, .waitReturns 0, .waitReturns 1]
    s.lists 7 = [0, 1] ∧ s'.pc 2 = .idle ∧ s'.returned = [0] ∧ s'.lists 7 = [1] ∧
      s'.wokenBy 0 = [0] ∧ ¬ s'.Parked 0 := by
  intro s s'
  have answered := (wakeups_exact [.wait 0 7, .wait 1 7]).2 2 7 false
    [.goOn 2, .deschedule 0, .goOn 2, .goOn 2, .deschedule 1, .waitReturns 0, .waitReturns 1]
    (by decide)
  have back : s'.pc 2 = .idle := by decide
  exact ⟨by decide, back, by decide, by decide, answered.woken back 0 (by decide)⟩

end OsKernel.Cond
