/-
The lists of threads (`alter_state` of `kern/ctrl_blk.c`), `switch_context` and
`round_robin` (`kern/scheduler.c`).

A list of the kernel is circular and held by a pointer to its head; here it is the row of
its threads from the head on. `alter_state` looks for the node that the thread goes before
while the thread is still in its old list, which shows when that node is its own: `place`
follows the assignments there too. A thread is the address of its TCB.
-/

import Mathlib.Data.List.DropRight
import Mathlib.Data.List.Nodup
import Mathlib.Logic.Function.Basic
import Mathlib.Tactic.Common

namespace OsKernel.Sched

inductive ThreadState where
  | new
  | ready
  | running
  | waiting
  | terminated
deriving DecidableEq

inductive Reason where
  | sleep
  | readline
  | deschedule
  | vanishWait
deriving DecidableEq

/-- `blocking_detail_t`, with the member of the union that its reason uses. -/
inductive BlockingDetail where
  | sleep (wakeupTime : BitVec 32)
  | readline (firstReader : Bool)
  | deschedule
  | vanishWait
deriving DecidableEq

namespace BlockingDetail

def reason : BlockingDetail → Reason
  | sleep _ => .sleep
  | readline _ => .readline
  | deschedule => .deschedule
  | vanishWait => .vanishWait

/-- Read of threads in the `SLEEP` list only. -/
def wakeupTime : BlockingDetail → BitVec 32
  | sleep w => w
  | _ => 0

/-- Read of threads in the `READLINE` list only. -/
def firstReader : BlockingDetail → Bool
  | readline first => first
  | _ => false

end BlockingDetail

/-- An index into `thread_lists`. -/
inductive ListIdx where
  | state (s : ThreadState)
  | reason (r : Reason)
deriving DecidableEq

/-- What `tcb_t` holds for the lists. -/
structure Tcb where
  pcb : Nat
  tid : Int
  state : ThreadState
  detail : BlockingDetail
deriving DecidableEq

/-- The list that a thread belongs to. -/
def Tcb.listIdx (tcb : Tcb) : ListIdx :=
  if tcb.state = .waiting then .reason tcb.detail.reason else .state tcb.state

abbrev Thread := Nat

structure Threads where
  tcb : Thread → Tcb
  lists : ListIdx → List Thread

/-! ### Places in a list -/

/-- The node that a thread goes before in the `SLEEP` list, and whether it becomes the head. -/
def sleepDestination (wakeupTime : Thread → BitVec 32) (w : BitVec 32) :
    List Thread → Option Thread × Bool
  | [] => (none, true)
  | h :: rest =>
      if w ≤ wakeupTime h then (some h, true)
      else (some (((rest.dropWhile fun u => wakeupTime u < w).head?).getD h), false)

/-- The node that a thread of process `p` goes before in the `READY` list: the one after the
last thread of the process, or the head. -/
def readyDestination (pcb : Thread → Nat) (p : Nat) (l : List Thread) : Option Thread :=
  if l.rdropWhile (fun u => pcb u ≠ p) = [] then l.head?
  else ((l.rtakeWhile fun u => pcb u ≠ p).head?).or l.head?

/-- Put `t` before the node `d`; `l` is the list without `t`. The node may be the one of `t`:
then it ends in a circle of its own. -/
def place (l : List Thread) (t : Thread) (d : Option Thread) (frontPushed : Bool) : List Thread :=
  match d with
  | none => [t]
  | some d =>
      if d = t then if frontPushed then [t] else l
      else if frontPushed then t :: l
      else if l.head? = some d then l ++ [t]
      else l.takeWhile (· ≠ d) ++ t :: l.dropWhile (· ≠ d)

namespace Threads

/-- The target list of `alter_state`, the node there and whether the head changes. -/
def destination (k : Threads) (t : Thread) (detail : Option BlockingDetail) :
    ThreadState → Option (ListIdx × Option Thread × Bool)
  | .waiting => detail.map fun detail =>
      (.reason detail.reason, match detail with
        | .sleep w => sleepDestination (fun u => (k.tcb u).detail.wakeupTime) w
            (k.lists (.reason .sleep))
        | .readline first => ((k.lists (.reason .readline)).head?, first)
        | .deschedule => ((k.lists (.reason .deschedule)).head?, false)
        | .vanishWait => ((k.lists (.reason .vanishWait)).head?, false))
  | .ready => some (.state .ready,
      readyDestination (fun u => (k.tcb u).pcb) (k.tcb t).pcb (k.lists (.state .ready)), false)
  | .running => some (.state .running, (k.lists (.state .running)).head?, true)
  | .terminated => some (.state .terminated, (k.lists (.state .terminated)).head?, false)
  | .new => none

/-- The lists without a thread. -/
def unlink (k : Threads) (t : Thread) : ListIdx → List Thread :=
  Function.update k.lists (k.tcb t).listIdx ((k.lists (k.tcb t).listIdx).erase t)

/-- Thread `t` put before the node `d` of another list, or of the same one. -/
def moved (k : Threads) (t : Thread) (state : ThreadState) (detail : Option BlockingDetail)
    (idx : ListIdx) (d : Option Thread) (frontPushed : Bool) : Threads where
  tcb := Function.update k.tcb t { k.tcb t with
    state := state
    detail := if state = .waiting then detail.getD (k.tcb t).detail else (k.tcb t).detail }
  lists := Function.update (k.unlink t) idx (place (k.unlink t idx) t d frontPushed)

/-- `alter_state`; none if it fails. -/
def alterState (k : Threads) (t : Thread) (state : ThreadState) (detail : Option BlockingDetail) :
    Option Threads :=
  if (k.tcb t).state = .new ∨ t ∉ k.lists (k.tcb t).listIdx then none
  else (k.destination t detail state).map fun (idx, d, frontPushed) =>
    k.moved t state detail idx d frontPushed

/-- `alter_state`, by a caller that does not look at what it returns. -/
def alter (k : Threads) (t : Thread) (state : ThreadState) (detail : Option BlockingDetail) :
    Threads := (k.alterState t state detail).getD k

/-- `switch_context`, as far as the lists go. -/
def switchContext (k : Threads) (target : Thread) (state : ThreadState)
    (detail : Option BlockingDetail) : Threads :=
  if state = .waiting ∧ detail = none then k
  else match k.lists (.state .running) with
    | [] => k
    | original :: _ => (k.alter original state detail).alter target .running none

/-- The list of runnable threads after `round_robin`. -/
def rotate (pcb : Thread → Nat) : List Thread → List Thread
  | [] => []
  | h :: rest => match rest.dropWhile (fun u => pcb u = pcb h) with
    | [] => h :: rest
    | d :: ds => d :: ds ++ h :: rest.takeWhile fun u => pcb u = pcb h

/-- `round_robin` -/
def roundRobin (k : Threads) : Threads × Option Thread :=
  let ready := k.lists (.state .ready)
  ({ k with lists := Function.update k.lists (.state .ready) (rotate (fun u => (k.tcb u).pcb) ready) },
    ready.head?)

end Threads

/-! ### What `alter_state` changes -/

/-- Every thread in a list is there once, and is in the state that the list is for. -/
structure Threads.WellFormed (k : Threads) : Prop where
  nodup : ∀ i, (k.lists i).Nodup
  listed : ∀ i t, t ∈ k.lists i → (k.tcb t).listIdx = i

theorem mem_place {l : List Thread} {t u : Thread} {d : Option Thread} {frontPushed : Bool}
    (mem : u ∈ place l t d frontPushed) : u = t ∨ u ∈ l := by
  unfold place at mem
  cases d with
  | none => exact .inl (List.mem_singleton.mp mem)
  | some d =>
      dsimp only at mem
      split_ifs at mem
      · exact .inl (List.mem_singleton.mp mem)
      · exact .inr mem
      · exact List.mem_cons.mp mem
      · rcases List.mem_append.mp mem with mem | mem
        · exact .inr mem
        · exact .inl (List.mem_singleton.mp mem)
      · rw [List.mem_append, List.mem_cons] at mem
        rcases mem with mem | rfl | mem
        · exact .inr ((List.takeWhile_prefix _).subset mem)
        · exact .inl rfl
        · exact .inr ((List.dropWhile_suffix _).subset mem)

theorem nodup_place {l : List Thread} {t : Thread} (nodup : l.Nodup) (new : t ∉ l)
    (d : Option Thread) (frontPushed : Bool) : (place l t d frontPushed).Nodup := by
  have front : (t :: l).Nodup := List.nodup_cons.mpr ⟨new, nodup⟩
  unfold place
  cases d with
  | none => exact List.nodup_singleton t
  | some d =>
      dsimp only
      split_ifs
      · exact List.nodup_singleton t
      · exact nodup
      · exact front
      · exact (List.perm_append_singleton t l).nodup_iff.mpr front
      · refine (List.perm_middle).nodup_iff.mpr ?_
        rw [List.takeWhile_append_dropWhile]
        exact front

theorem place_head {l : List Thread} {t : Thread} (some : l ≠ []) (new : t ∉ l) :
    place l t l.head? false = l ++ [t] := by
  cases l with
  | nil => exact absurd rfl some
  | cons h rest =>
      have other : h ≠ t := fun same => new (same ▸ List.mem_cons_self)
      simp [place, other]

/-- A thread put before a node that is not the head. -/
theorem place_before {pre post : List Thread} {d t : Thread} (nodup : (pre ++ d :: post).Nodup)
    (some : pre ≠ []) (new : d ≠ t) :
    place (pre ++ d :: post) t (.some d) false = pre ++ t :: d :: post := by
  have apart : ∀ u ∈ pre, u ≠ d := fun u mem same =>
    (List.nodup_append.mp nodup).2.2 u mem d List.mem_cons_self same
  have head : (pre ++ d :: post).head? ≠ .some d := by
    cases pre with
    | nil => exact absurd rfl some
    | cons h rest => simpa using apart h List.mem_cons_self
  have takes : (pre ++ d :: post).takeWhile (fun u => decide (u ≠ d)) = pre := by
    rw [List.takeWhile_append_of_pos fun u mem => decide_eq_true (apart u mem)]
    simp
  have drops : (pre ++ d :: post).dropWhile (fun u => decide (u ≠ d)) = d :: post := by
    rw [List.dropWhile_append_of_pos fun u mem => decide_eq_true (apart u mem)]
    simp
  rw [place, if_neg new, if_neg Bool.false_ne_true, if_neg head, takes, drops]

/-- `alter_state` puts a thread behind the last one of its process, or at the end. -/
theorem place_ready {l : List Thread} {t : Thread} (pcb : Thread → Nat) (nodup : l.Nodup) (new : t ∉ l) :
    ∃ pre post, l = pre ++ post ∧
      place l t (readyDestination pcb (pcb t) l) false = pre ++ t :: post ∧
      (∀ u ∈ post, pcb u ≠ pcb t) ∧
      ((∃ init e, pre = init ++ [e] ∧ pcb e = pcb t) ∨ post = [] ∧ ∀ u ∈ pre, pcb u ≠ pcb t) := by
  have parts := List.rdropWhile_append_rtakeWhile (p := fun u => decide (pcb u ≠ pcb t)) (l := l)
  have behind : ∀ u ∈ l.rtakeWhile fun u => pcb u ≠ pcb t, pcb u ≠ pcb t :=
    fun u mem => of_decide_eq_true (List.mem_rtakeWhile_imp (p := fun u => decide (pcb u ≠ pcb t)) mem)
  unfold readyDestination
  by_cases found : l.rdropWhile (fun u => pcb u ≠ pcb t) = []
  · have none : ∀ u ∈ l, pcb u ≠ pcb t := by simpa using List.rdropWhile_eq_nil_iff.mp found
    refine ⟨l, [], (List.append_nil l).symm, ?_, by simp, .inr ⟨rfl, none⟩⟩
    rw [if_pos found]
    by_cases empty : l = []
    · subst empty
      rfl
    · exact place_head empty new
  · refine ⟨_, _, parts.symm, ?_, behind, .inl ?_⟩
    · rw [if_neg found]
      generalize l.rdropWhile (fun u => decide (pcb u ≠ pcb t)) = pre at parts found
      cases after : l.rtakeWhile fun u => decide (pcb u ≠ pcb t) with
      | nil =>
          rw [after, List.append_nil] at parts
          subst parts
          exact place_head found new
      | cons d ds =>
          rw [after] at parts
          subst parts
          have other : d ≠ t := fun same => new (by simp [same])
          exact place_before nodup found other
    · have last := List.rdropWhile_last_not (fun u => decide (pcb u ≠ pcb t)) l found
      exact ⟨_, _, (List.dropLast_append_getLast found).symm, by simpa using last⟩

namespace Threads

variable {k : Threads} {t : Thread} {state : ThreadState} {detail : Option BlockingDetail}

/-- A call of `alter_state` that moves its thread. -/
theorem alterState_eq {idx : ListIdx} {d : Option Thread} {frontPushed : Bool}
    (old : (k.tcb t).state ≠ .new) (mem : t ∈ k.lists (k.tcb t).listIdx)
    (goes : k.destination t detail state = some (idx, d, frontPushed)) :
    k.alter t state detail = k.moved t state detail idx d frontPushed := by
  rw [alter, alterState, if_neg (by tauto), goes]
  rfl

/-- A call of `alter_state` changes nothing, or moves its thread. -/
theorem alter_cases (k : Threads) (t : Thread) (state : ThreadState) (detail : Option BlockingDetail) :
    k.alter t state detail = k ∨ ∃ idx d frontPushed, (k.tcb t).state ≠ .new ∧
      t ∈ k.lists (k.tcb t).listIdx ∧ k.destination t detail state = some (idx, d, frontPushed) := by
  by_cases fails : (k.tcb t).state = .new ∨ t ∉ k.lists (k.tcb t).listIdx
  · left
    rw [alter, alterState, if_pos fails]
    rfl
  · rw [not_or, not_not] at fails
    cases goes : k.destination t detail state with
    | none =>
        left
        rw [alter, alterState, if_neg (by tauto), goes]
        rfl
    | some out => exact .inr ⟨out.1, out.2.1, out.2.2, fails.1, fails.2, rfl⟩

/-- The list that a target state is for. -/
theorem destination_idx {idx : ListIdx} {d : Option Thread} {frontPushed : Bool}
    (goes : k.destination t detail state = some (idx, d, frontPushed)) :
    idx = if state = .waiting then .reason (detail.getD (k.tcb t).detail).reason else .state state := by
  cases state with
  | waiting =>
      cases detail with
      | none => cases goes
      | some detail =>
          rw [destination, Option.map_some, Option.some.injEq, Prod.mk.injEq] at goes
          exact goes.1.symm
  | new => cases goes
  | _ =>
      cases goes
      rfl

section
variable {i idx : ListIdx} {d : Option Thread} {frontPushed : Bool}

theorem moved_lists_self : (k.moved t state detail idx d frontPushed).lists idx =
    place (k.unlink t idx) t d frontPushed := Function.update_self ..

theorem moved_lists_other (other : i ≠ idx) :
    (k.moved t state detail idx d frontPushed).lists i = k.unlink t i := Function.update_of_ne other ..

theorem moved_tcb_self : (k.moved t state detail idx d frontPushed).tcb t = { k.tcb t with
    state := state
    detail := if state = .waiting then detail.getD (k.tcb t).detail else (k.tcb t).detail } :=
  Function.update_self ..

theorem moved_tcb_other {u : Thread} (other : u ≠ t) :
    (k.moved t state detail idx d frontPushed).tcb u = k.tcb u := Function.update_of_ne other ..

end

theorem mem_unlink {i : ListIdx} {u : Thread} (mem : u ∈ k.unlink t i) : u ∈ k.lists i := by
  unfold unlink at mem
  by_cases own : i = (k.tcb t).listIdx
  · subst own
    rw [Function.update_self] at mem
    exact List.mem_of_mem_erase mem
  · rwa [Function.update_of_ne own] at mem

theorem unlink_other {i : ListIdx} (other : i ≠ (k.tcb t).listIdx) : k.unlink t i = k.lists i :=
  Function.update_of_ne other _ _

namespace WellFormed

theorem not_mem_unlink (wf : k.WellFormed) (i : ListIdx) : t ∉ k.unlink t i := by
  unfold unlink
  by_cases own : i = (k.tcb t).listIdx
  · subst own
    rw [Function.update_self]
    exact (wf.nodup _).not_mem_erase
  · rw [Function.update_of_ne own]
    exact fun mem => own (wf.listed i t mem).symm

theorem nodup_unlink (wf : k.WellFormed) (i : ListIdx) : (k.unlink t i).Nodup := by
  unfold unlink
  by_cases own : i = (k.tcb t).listIdx
  · subst own
    rw [Function.update_self]
    exact (wf.nodup _).erase t
  · rw [Function.update_of_ne own]
    exact wf.nodup i

theorem alter (wf : k.WellFormed) (t : Thread) (state : ThreadState)
    (detail : Option BlockingDetail) : (k.alter t state detail).WellFormed := by
  obtain same | ⟨idx, d, frontPushed, old, mem, goes⟩ := k.alter_cases t state detail
  · rw [same]
    exact wf
  rw [alterState_eq old mem goes]
  have target := destination_idx goes
  refine ⟨fun i => ?_, fun i u inList => ?_⟩
  · by_cases here : i = idx
    · subst here
      rw [moved_lists_self]
      exact nodup_place (wf.nodup_unlink i) (wf.not_mem_unlink i) d frontPushed
    · rw [moved_lists_other here]
      exact wf.nodup_unlink i
  · by_cases self : u = t
    · subst self
      rw [moved_tcb_self]
      by_cases here : i = idx
      · rw [here, target, Tcb.listIdx]
        dsimp only
        split_ifs <;> rfl
      · rw [moved_lists_other here] at inList
        exact absurd inList (wf.not_mem_unlink i)
    · rw [moved_tcb_other self]
      by_cases here : i = idx
      · subst here
        rw [moved_lists_self] at inList
        exact wf.listed i u (mem_unlink ((mem_place inList).resolve_left self))
      · rw [moved_lists_other here] at inList
        exact wf.listed i u (mem_unlink inList)

end WellFormed

theorem switchContext_eq {u : Thread} {rest : List Thread}
    (running : k.lists (.state .running) = t :: rest) (given : state ≠ .waiting ∨ detail ≠ none) :
    k.switchContext u state detail = (k.alter t state detail).alter u .running none := by
  rw [switchContext, if_neg (by tauto), running]

theorem WellFormed.switchContext (wf : k.WellFormed) (u : Thread) (state : ThreadState)
    (detail : Option BlockingDetail) : (k.switchContext u state detail).WellFormed := by
  unfold Threads.switchContext
  split
  · exact wf
  · split
    · exact wf
    · exact (wf.alter _ _ _).alter _ _ _

/-- A thread that goes from one list to another. -/
theorem WellFormed.alter_lists (wf : k.WellFormed) {i idx : ListIdx} {d : Option Thread}
    {frontPushed : Bool} (mem : t ∈ k.lists i) (made : i ≠ .state .new) (apart : idx ≠ i)
    (goes : k.destination t detail state = some (idx, d, frontPushed)) :
    (k.alter t state detail).lists idx = place (k.lists idx) t d frontPushed ∧
      (k.alter t state detail).lists i = (k.lists i).erase t ∧
      ∀ j, j ≠ idx → j ≠ i → (k.alter t state detail).lists j = k.lists j := by
  have own := wf.listed i t mem
  have old : (k.tcb t).state ≠ .new := by
    intro new
    rw [Tcb.listIdx, new] at own
    exact made own.symm
  rw [alterState_eq old (by rw [own]; exact mem) goes]
  refine ⟨?_, ?_, fun j target source => ?_⟩
  · rw [moved_lists_self, unlink_other (by rw [own]; exact apart)]
  · rw [moved_lists_other apart.symm, unlink, own, Function.update_self]
  · rw [moved_lists_other target, unlink_other (by rw [own]; exact source)]

theorem alter_tcb_other {u : Thread} (other : u ≠ t) :
    (k.alter t state detail).tcb u = k.tcb u := by
  obtain same | ⟨idx, d, frontPushed, old, mem, goes⟩ := k.alter_cases t state detail
  · rw [same]
  · rw [alterState_eq old mem goes, moved_tcb_other other]

/-- Who is in a list after `alter_state`. -/
theorem mem_lists_alter {u : Thread} {i : ListIdx} (mem : u ∈ (k.alter t state detail).lists i) :
    u ∈ k.lists i ∨ u = t ∧ ∃ d frontPushed, k.destination t detail state = some (i, d, frontPushed) := by
  obtain same | ⟨idx, d, frontPushed, old, own, goes⟩ := k.alter_cases t state detail
  · rw [same] at mem
    exact .inl mem
  rw [alterState_eq old own goes] at mem
  by_cases here : i = idx
  · subst here
    rw [moved_lists_self] at mem
    exact (mem_place mem).elim (fun self => .inr ⟨self, d, frontPushed, goes⟩) fun old =>
      .inl (mem_unlink old)
  · rw [moved_lists_other here] at mem
    exact .inl (mem_unlink mem)

/-- The process and the number of a thread stay. -/
theorem alter_names (u : Thread) : ((k.alter t state detail).tcb u).pcb = (k.tcb u).pcb ∧
    ((k.alter t state detail).tcb u).tid = (k.tcb u).tid := by
  by_cases other : u = t
  swap
  · rw [alter_tcb_other other]
    exact ⟨rfl, rfl⟩
  subst other
  obtain same | ⟨idx, d, frontPushed, old, mem, goes⟩ := k.alter_cases u state detail
  · rw [same]
    exact ⟨rfl, rfl⟩
  · rw [alterState_eq old mem goes, moved_tcb_self]
    exact ⟨rfl, rfl⟩

theorem rotate_perm (pcb : Thread → Nat) (l : List Thread) : (rotate pcb l).Perm l := by
  cases l with
  | nil => exact .refl _
  | cons h rest =>
      rw [rotate]
      have whole := List.takeWhile_append_dropWhile (p := fun u => decide (pcb u = pcb h)) (l := rest)
      cases behind : rest.dropWhile fun u => pcb u = pcb h with
      | nil => exact .refl _
      | cons d ds =>
          dsimp only
          rw [behind] at whole
          conv_rhs => rw [← whole]
          exact (List.perm_append_comm : ((d :: ds) ++ (h :: rest.takeWhile _)).Perm _)

theorem WellFormed.roundRobin (wf : k.WellFormed) : k.roundRobin.1.WellFormed := by
  have perm := rotate_perm (fun u => (k.tcb u).pcb) (k.lists (.state .ready))
  refine ⟨fun i => ?_, fun i u mem => ?_⟩
  · by_cases here : i = .state .ready
    · subst here
      simp only [Threads.roundRobin, Function.update_self]
      exact perm.nodup_iff.mpr (wf.nodup _)
    · simp only [Threads.roundRobin, Function.update_of_ne here]
      exact wf.nodup i
  · by_cases here : i = .state .ready
    · subst here
      simp only [Threads.roundRobin, Function.update_self] at mem
      exact wf.listed _ u (perm.mem_iff.mp mem)
    · simp only [Threads.roundRobin, Function.update_of_ne here] at mem
      exact wf.listed i u mem

end Threads

/-! ### The timer -/

/-- The lists, and `tick_count`. -/
structure Clock extends Threads where
  tickCount : BitVec 32

namespace Clock

/-- The thread at the head of the `SLEEP` list, if its time has come. -/
def sleeper (c : Clock) (now : BitVec 32) : Option Thread :=
  match c.lists (.reason .sleep) with
  | [] => none
  | t :: _ => if (c.tcb t).detail.wakeupTime ≤ now then some t else none

/-- `handle_timer`; there is a round robin at every tick. -/
def handleTimer (c : Clock) : Clock :=
  let now := c.tickCount + 1
  match c.sleeper now with
  | some t => ⟨c.switchContext t .ready none, now⟩
  | none => match c.roundRobin with
    | (k, some t) => ⟨k.switchContext t .ready none, now⟩
    | (_, none) => ⟨c.toThreads, now⟩

end Clock

end OsKernel.Sched
