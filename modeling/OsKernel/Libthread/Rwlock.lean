/-
Readers/writer locks (`user/libthread/rwlock.c`).

What a call does while it holds `rw_list_manipulation` is one step, up to the point where
it waits for somebody else: `rwlock_unlock` and `rwlock_downgrade` hold the mutex while
`cond_signal` calls `make_runnable` until the thread they wake has called `deschedule`.
A thread that waits has put itself on the condition variable of its own record before it
gives up the mutex, calls `deschedule` in a step of its own, and needs the mutex again once
it has been woken; then `rwlock_lock` returns without another look at the list.

`rwlock_downgrade` keeps its pointer to the second node when it moves this node to the end
of the list. It goes on with the node that it has freed, which holds the same record, and
`append_node` may give it the same memory again: it will not leave the loop.
-/

import OsKernel.Lib.Run
import Mathlib.Data.List.Nodup
import Mathlib.Data.List.TakeWhile
import Mathlib.Logic.Function.Basic
import Mathlib.Tactic.Common

namespace OsKernel.Rwlock

abbrev Thread := Nat

inductive LockType where
  | read
  | write
deriving DecidableEq

/-- `rw_record` -/
structure Record where
  threadId : Thread
  rwLockType : LockType
deriving DecidableEq

def Record.reads (r : Record) : Bool := r.rwLockType = .read

inductive Caller where
  | unlock
  | downgrade
deriving DecidableEq

inductive Pc where
  | idle
  /-- In `cond_wait`, on the list of the condition variable; the mutex has been given up. -/
  | registered
  | descheduled
  /-- Made runnable, and to take the mutex again. -/
  | awake
  /-- `rwlock_lock` has returned. -/
  | holding
  /-- About to call `cond_signal` for the records of these threads. -/
  | signals (caller : Caller) (targets : List Thread)
  /-- Calls `make_runnable` for a thread until it succeeds. -/
  | wakes (caller : Caller) (target : Thread) (targets : List Thread)
  /-- In the loop at the end of `rwlock_downgrade`; whether the node is in the list. -/
  | moves (record : Record) (linked : Bool)
deriving DecidableEq

structure State where
  /-- `rw_list`, from the head on. -/
  rwList : List Record
  pc : Thread → Pc
  /-- The thread is on the list of the condition variable in its record. -/
  waiting : Thread → Bool
  /-- Who holds `rw_list_manipulation` between two steps. -/
  locked : Option Thread

def State.init : State := ⟨[], fun _ => .idle, fun _ => false, none⟩

inductive Input where
  /-- `rwlock_lock`, and whether `malloc` gives a record, and a node. -/
  | lock (t : Thread) (type : LockType) (record node : Bool)
  | deschedule (t : Thread)
  /-- `rwlock_lock` returns after its wait. -/
  | lockReturns (t : Thread)
  | unlock (t : Thread)
  | downgrade (t : Thread)
  /-- A step of `rwlock_unlock` or `rwlock_downgrade` under the mutex; `append_node`
  may get a node, and that may be the one that was freed last. -/
  | goOn (t : Thread) (node reused : Bool)

/-! ### The list -/

def findByRwLockType (l : List Record) (type : LockType) : Option Record :=
  l.find? fun r => r.rwLockType = type

def findByThreadId (l : List Record) (t : Thread) : Option Record :=
  l.find? fun r => r.threadId = t

/-- `append_node` before a node of the ring: before the head is at the end. -/
def appendNode (l : List Record) (node record : Record) : List Record :=
  if l.head? = some node then l ++ [record]
  else l.takeWhile (· ≠ node) ++ record :: l.dropWhile (· ≠ node)

/-- Where a writer that has to wait is put. -/
def insertWriter (l : List Record) (record : Record) : List Record :=
  match findByRwLockType l .write with
  | none => l ++ [record]
  | some _ => match findByRwLockType l .read with
    | none => l ++ [record]
    | some firstR => appendNode l firstR record

/-- Whom the case for readers in `rwlock_unlock` signals. -/
def signalWriter : List Record → List Thread
  | [] => []
  | first :: _ => if first.reads then [] else [first.threadId]

/-- Whom the case for writers signals. -/
def signalNext : List Record → List Thread
  | [] => []
  | first :: rest =>
      if first.reads then ((first :: rest).takeWhile Record.reads).map Record.threadId
      else [first.threadId]

/-- The signals of `rwlock_unlock`: the case for readers falls through. -/
def unlockTargets (l : List Record) : LockType → List Thread
  | .read => signalWriter l ++ signalNext l
  | .write => signalNext l

/-- The signals of `rwlock_downgrade`: from the first reader to the end. -/
def downgradeTargets (l : List Record) : List Thread :=
  (l.dropWhile fun r => !r.reads).map Record.threadId

/-- The records whose threads may have the lock. -/
def granted : List Record → List Record
  | [] => []
  | first :: rest => if first.reads then first :: rest.takeWhile Record.reads else [first]

namespace State

def goto (s : State) (t : Thread) (pc : Pc) : State := { s with pc := Function.update s.pc t pc }

/-- `append_node`, and the wait. -/
def wait (s : State) (t : Thread) (l : List Record) (node : Bool) : State :=
  { s.goto t .registered with
    rwList := if node then l else s.rwList
    waiting := Function.update s.waiting t true }

/-- `append_node`, and the return; without a node `rwlock_lock` returns as well. -/
def grant (s : State) (t : Thread) (l : List Record) (node : Bool) : State :=
  if node then { s.goto t .holding with rwList := l } else s

/-- `rwlock_lock` -/
def lock (s : State) (t : Thread) (type : LockType) (node : Bool) : State :=
  let new : Record := ⟨t, type⟩
  match type with
  | .read => match findByRwLockType s.rwList .write with
    | none => s.grant t (s.rwList ++ [new]) node
    | some _ => s.wait t (s.rwList ++ [new]) node
  | .write =>
      if s.rwList = [] then s.grant t [new] node
      else s.wait t (insertWriter s.rwList new) node

/-- `rwlock_unlock`, up to its signals. -/
def unlock (s : State) (t : Thread) : State :=
  match findByThreadId s.rwList t with
  | none => s
  | some mine =>
      let rest := s.rwList.erase mine
      { s.goto t (.signals .unlock (unlockTargets rest mine.rwLockType)) with
        rwList := rest
        waiting := Function.update s.waiting t false
        locked := some t }

/-- `rwlock_downgrade`, up to its signals. -/
def downgrade (s : State) (t : Thread) : State :=
  match s.rwList with
  | [] => s
  | first :: _ =>
      if first.threadId ≠ t ∨ first.rwLockType ≠ .write then s
      else { s.goto t (.signals .downgrade (downgradeTargets s.rwList)) with locked := some t }

/-- `rwlock_downgrade`, after its signals. -/
def endDowngrade (s : State) (t : Thread) : State :=
  match s.rwList with
  | [] => s
  | first :: rest =>
      let last : State := { s.goto t .holding with
        rwList := { first with rwLockType := .read } :: rest
        locked := none }
      match findByRwLockType s.rwList .read, rest with
      | some _, second :: _ => if second.reads then last else s.goto t (.moves second true)
      | _, _ => last

def goOn (s : State) (t : Thread) (node reused : Bool) : State :=
  match s.pc t with
  | .signals caller (u :: targets) =>
      if s.waiting u then
        { s.goto t (.wakes caller u targets) with waiting := Function.update s.waiting u false }
      else s.goto t (.signals caller targets)
  | .wakes caller u targets =>
      if s.pc u = .descheduled then (s.goto u .awake).goto t (.signals caller targets) else s
  | .signals .unlock [] => { s.goto t .idle with locked := none }
  | .signals .downgrade [] => s.endDowngrade t
  | .moves record linked =>
      let rest := if linked then s.rwList.erase record else s.rwList
      { s.goto t (.moves record (node && reused)) with
        rwList := if node then rest ++ [record] else rest }
  | _ => s

def step (s : State) : Input → State
  | .lock t type record node =>
      if s.pc t = .idle ∧ s.locked = none ∧ record then s.lock t type node else s
  | .deschedule t => if s.pc t = .registered then s.goto t .descheduled else s
  | .lockReturns t => if s.pc t = .awake ∧ s.locked = none then s.goto t .holding else s
  | .unlock t =>
      if (s.pc t = .holding ∨ s.pc t = .idle) ∧ s.locked = none then s.unlock t else s
  | .downgrade t =>
      if (s.pc t = .holding ∨ s.pc t = .idle) ∧ s.locked = none then s.downgrade t else s
  | .goOn t node reused => s.goOn t node reused

/-- `rwlock_lock` has returned to the thread, which has not yet unlocked. -/
def holds (s : State) (t : Thread) : Bool :=
  match s.pc t with
  | .holding | .signals .downgrade _ | .wakes .downgrade .. | .moves .. => true
  | _ => false

end State

/-! ### The leading part of the list -/

section
variable {l : List Record} {r new : Record}

theorem signalNext_eq (l : List Record) : signalNext l = (granted l).map Record.threadId := by
  cases l with
  | nil => rfl
  | cons first rest =>
      rw [signalNext, granted]
      split
      · rename_i reads
        rw [List.takeWhile_cons_of_pos reads]
      · rfl

theorem granted_subset : ∀ r ∈ granted l, r ∈ l := by
  cases l with
  | nil => exact fun r mem => mem
  | cons first rest =>
      intro r mem
      rw [granted] at mem
      split at mem
      · rcases List.mem_cons.mp mem with rfl | mem
        · exact List.mem_cons_self
        · exact List.mem_cons_of_mem _ ((List.takeWhile_prefix _).subset mem)
      · rw [List.mem_singleton.mp mem]
        exact List.mem_cons_self

theorem granted_of_reads (all : ∀ r ∈ l, r.reads = true) : granted l = l := by
  cases l with
  | nil => rfl
  | cons first rest =>
      rw [granted, if_pos (all first List.mem_cons_self),
        List.takeWhile_eq_self_iff.mpr fun r mem => all r (List.mem_cons_of_mem _ mem)]

/-- The leading part is a writer, or readers. -/
theorem granted_cases (l : List Record) :
    (∃ w rest, l = w :: rest ∧ w.reads = false ∧ granted l = [w]) ∨
      ∀ r ∈ granted l, r.reads = true := by
  cases l with
  | nil => exact .inr nofun
  | cons first rest =>
      cases reads : first.reads with
      | false => exact .inl ⟨first, rest, rfl, reads, if_neg (by simp [reads])⟩
      | true =>
          refine .inr fun r mem => ?_
          rw [granted, if_pos reads] at mem
          rcases List.mem_cons.mp mem with rfl | mem
          · exact reads
          · exact List.mem_takeWhile_imp mem

theorem granted_reads (first : Record) (rest : List Record) (reads : first.reads = true) :
    granted (first :: rest) = (first :: rest).takeWhile Record.reads := by
  rw [granted, if_pos reads, List.takeWhile_cons_of_pos reads]

/-- Whoever has the lock keeps it when records are put at the end. -/
theorem granted_append (mem : r ∈ granted l) (more : List Record) : r ∈ granted (l ++ more) := by
  cases l with
  | nil => cases mem
  | cons first rest =>
      cases reads : first.reads with
      | false =>
          rw [granted, if_neg (by simp [reads])] at mem
          rwa [List.cons_append, granted, if_neg (by simp [reads])]
      | true =>
          rw [granted_reads _ _ reads] at mem
          rw [List.cons_append, granted_reads _ _ reads, ← List.cons_append, List.takeWhile_append]
          split
          · exact List.mem_append_left _ ((List.takeWhile_prefix _).subset mem)
          · exact mem

/-- Whoever has the lock keeps it when another one who has it leaves. -/
theorem granted_erase {mine : Record} (mem : r ∈ granted l) (own : mine ∈ granted l)
    (other : r ≠ mine) : r ∈ granted (l.erase mine) := by
  rcases granted_cases l with ⟨w, rest, -, -, alone⟩ | readers
  · rw [alone, List.mem_singleton] at mem own
    exact absurd (mem.trans own.symm) other
  · obtain ⟨first, rest, rfl⟩ : ∃ first rest, l = first :: rest := by
      cases l with
      | nil => cases mem
      | cons first rest => exact ⟨first, rest, rfl⟩
    have reads : first.reads = true := readers first (by rw [granted]; split <;> exact List.mem_cons_self)
    rw [granted_reads _ _ reads] at mem own readers
    have whole := List.takeWhile_append_dropWhile (p := Record.reads) (l := first :: rest)
    generalize (first :: rest).takeWhile Record.reads = front at mem own readers whole
    rw [← whole, List.erase_append_left _ own]
    refine granted_append ?_ _
    rw [granted_of_reads fun r mem => readers r (List.mem_of_mem_erase mem)]
    exact (List.mem_erase_of_ne other).mpr mem

/-- A writer that has to wait comes to the end, or behind a writer at the head. -/
theorem insertWriter_cases (l : List Record) (new : Record) :
    insertWriter l new = l ++ [new] ∨ ∃ w front back, l = w :: front ++ back ∧ w.reads = false ∧
      insertWriter l new = w :: front ++ new :: back := by
  unfold insertWriter
  cases findByRwLockType l .write with
  | none => exact .inl rfl
  | some firstW =>
      cases found : findByRwLockType l .read with
      | none => exact .inl rfl
      | some firstR =>
          dsimp only
          unfold appendNode
          split
          · exact .inl rfl
          · rename_i behind
            cases l with
            | nil => cases found
            | cons w rest =>
                have other : w ≠ firstR := fun same => behind (congrArg some same)
                have writes : w.reads = false := by
                  cases reads : w.reads with
                  | false => rfl
                  | true =>
                      change List.find? Record.reads (w :: rest) = some firstR at found
                      rw [List.find?_cons_of_pos reads] at found
                      exact absurd (Option.some.inj found) other
                refine .inr ⟨w, rest.takeWhile (· ≠ firstR), rest.dropWhile (· ≠ firstR), ?_, writes, ?_⟩
                · rw [List.cons_append, List.takeWhile_append_dropWhile]
                · rw [List.takeWhile_cons_of_pos (by simpa using other),
                    List.dropWhile_cons_of_pos (by simpa using other)]

theorem insertWriter_perm (l : List Record) (new : Record) :
    (insertWriter l new).Perm (new :: l) := by
  rcases insertWriter_cases l new with eq | ⟨w, front, back, rfl, -, eq⟩
  · rw [eq]
    exact List.perm_append_singleton new l
  · rw [eq]
    exact List.perm_middle

theorem granted_insertWriter (mem : r ∈ granted l) : r ∈ granted (insertWriter l new) := by
  rcases insertWriter_cases l new with eq | ⟨w, front, back, rfl, writes, eq⟩
  · rw [eq]
    exact granted_append mem _
  · rw [eq]
    rw [List.cons_append, granted, if_neg (by simp [writes])] at mem ⊢
    exact mem

end

end OsKernel.Rwlock
