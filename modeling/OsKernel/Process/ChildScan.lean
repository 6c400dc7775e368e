/-
The locks of a scan for an exited child: `find_exited_child`, `unlock_children` and
`get_thread_alive_count` (`kern/ctrl_blk.c`).

All three loops run round a circular list and compare the node they come to with the one
they stop at. The calls of `mutex_lock` and `mutex_unlock` are kept as a trace; a loop that
runs out of fuel has no result. `child_scan` says which children are locked, and that the
same ones are unlocked, wherever in the list the exited child stands.
-/

import Mathlib.Algebra.Order.BigOperators.Group.List
import Mathlib.Algebra.Order.Group.Nat
import OsKernel.Lib.Ring

namespace OsKernel.Process

/-- `TERMINATED_STATE` -/
def terminatedState : Int := 4

/-- The children of a process, with the threads of each. -/
structure Family (α τ : Type) where
  /-- `child_pcb_list` of the parent. -/
  childPcbList : Option α
  links : Links α
  /-- `tcb_list` of each child. -/
  tcbList : α → Option τ
  tcbLinks : Links τ
  state : τ → Int

/-- A call for the lock of a child. -/
inductive LockCall (α : Type) where
  | lock (child : α)
  | unlock (child : α)
deriving DecidableEq

variable {α τ : Type} [DecidableEq α] [DecidableEq τ]

/-- The nodes of a `do … while (next != last)` loop. -/
def visits (L : Links α) (last : α) : Nat → α → Option (List α)
  | 0, _ => none
  | n + 1, x => if L.next x = last then some [x] else (visits L last n (L.next x)).map (x :: ·)

namespace Family

/-- `get_thread_alive_count` -/
def getThreadAliveCount (f : Family α τ) (n : Nat) (child : α) : Option Nat :=
  match f.tcbList child with
  | none => some 0
  | some head => (visits f.tcbLinks head n head).map fun threads =>
      threads.countP fun t => f.state t ≠ terminatedState

/-- The loop of `find_exited_child`, from `current` on. -/
def findLoop (f : Family α τ) (head : α) : Nat → α → Option (Option α × List (LockCall α))
  | 0, _ => none
  | n + 1, current => do
      let aliveCount ← f.getThreadAliveCount n current
      if aliveCount = 0 then some (some current, [.lock current])
      else if f.links.next current = head then some (none, [.lock current])
      else do
        let (found, calls) ← findLoop f head n (f.links.next current)
        some (found, .lock current :: calls)

/-- `find_exited_child` -/
def findExitedChild (f : Family α τ) (n : Nat) : Option (Option α × List (LockCall α)) :=
  match f.childPcbList with
  | none => some (none, [])
  | some head => f.findLoop head n head

/-- `unlock_children` -/
def unlockChildren (f : Family α τ) (n : Nat) (node : Option α) : Option (List (LockCall α)) :=
  match f.childPcbList with
  | none => some []
  | some current =>
      let lastNode := match node with
        | some node => f.links.next node
        | none => current
      (visits f.links lastNode n current).map (List.map .unlock)

/-! ### Lists -/

/-- The lists that the pointers stand for. -/
structure Lists (f : Family α τ) (kids : List α) (threads : α → List τ) : Prop where
  head : f.childPcbList = kids.head?
  ring : f.links.Ring kids
  tcbs : ∀ c ∈ kids, f.tcbList c = (threads c).head? ∧ f.tcbLinks.Ring (threads c)

/-- No thread of the child is alive. -/
def exited (f : Family α τ) (threads : α → List τ) (c : α) : Bool :=
  (threads c).all fun t => f.state t = terminatedState

/-- The children up to the first that has exited, or all of them. -/
def scanned (f : Family α τ) (kids : List α) (threads : α → List τ) : List α :=
  kids.take (kids.findIdx (f.exited threads) + 1)

end Family

theorem visits_chain {L : Links α} {last x : α} {m : List α} {n : Nat}
    (chain : (x :: m ++ [last]).IsChain L.Joined) (out : last ∉ m) (fuel : m.length < n) :
    visits L last n x = some (x :: m) := by
  induction m generalizing x n with
  | nil =>
      obtain ⟨k, rfl⟩ := Nat.exists_eq_add_of_lt fuel
      have joined : L.next x = last := (List.isChain_pair.mp chain).1
      simp [visits, joined]
  | cons y m ih =>
      cases n with
      | zero => simp at fuel
      | succ n =>
          rw [List.cons_append, List.cons_append, List.isChain_cons_cons] at chain
          obtain ⟨⟨next, -⟩, rest⟩ := chain
          rw [List.mem_cons, not_or] at out
          rw [visits, next, if_neg (Ne.symm out.1), ih rest out.2 (by simpa using fuel)]
          rfl

namespace Family

variable {f : Family α τ} {kids : List α} {threads : α → List τ} {n : Nat}

omit [DecidableEq α] in
theorem getThreadAliveCount_eq {c : α} (head : f.tcbList c = (threads c).head?)
    (ring : f.tcbLinks.Ring (threads c)) (fuel : (threads c).length ≤ n) :
    f.getThreadAliveCount n c = some ((threads c).countP fun t => f.state t ≠ terminatedState) := by
  rw [getThreadAliveCount, head]
  cases whole : threads c with
  | nil => rfl
  | cons t ts =>
      rw [whole] at ring fuel
      rw [List.head?_cons]
      dsimp only
      rw [visits_chain ring.2 (List.nodup_cons.mp ring.1).1 (Nat.lt_of_succ_le fuel)]
      rfl

/-- One round of the scan. -/
theorem findLoop_succ {c head : α} (tcbs : f.tcbList c = (threads c).head? ∧ f.tcbLinks.Ring (threads c))
    (fuel : (threads c).length ≤ n) : f.findLoop head (n + 1) c =
      if f.exited threads c then some (some c, [.lock c])
      else if f.links.next c = head then some (none, [.lock c])
      else (f.findLoop head n (f.links.next c)).map fun out => (out.1, .lock c :: out.2) := by
  have none_alive : (threads c).countP (fun t => f.state t ≠ terminatedState) = 0 ↔
      f.exited threads c = true := by
    simp [exited, List.countP_eq_zero, List.all_eq_true]
  rw [findLoop, getThreadAliveCount_eq tcbs.1 tcbs.2 fuel, Option.bind_eq_bind, Option.bind_some,
    if_congr none_alive rfl rfl]
  cases f.findLoop head n (f.links.next c) <;> rfl

omit [DecidableEq α] [DecidableEq τ] in
theorem scanned_cons (f : Family α τ) (c : α) (kids : List α) (threads : α → List τ) :
    f.scanned (c :: kids) threads =
      c :: if f.exited threads c then [] else f.scanned kids threads := by
  rw [scanned, scanned, List.findIdx_cons, List.take_succ_cons]
  cases f.exited threads c <;> rfl

/-- The rest of the scan, from a child on. -/
theorem findLoop_chain {head x : α} {m : List α}
    (chain : (x :: m ++ [head]).IsChain f.links.Joined) (out : head ∉ m)
    (tcbs : ∀ c ∈ x :: m, f.tcbList c = (threads c).head? ∧ f.tcbLinks.Ring (threads c))
    (fuel : ∀ c ∈ x :: m, m.length + (threads c).length < n) :
    f.findLoop head n x =
      some ((x :: m).find? (f.exited threads), (f.scanned (x :: m) threads).map .lock) := by
  induction m generalizing x n with
  | nil =>
      have next : f.links.next x = head := (List.isChain_pair.mp chain).1
      have enough := fuel x (List.mem_singleton_self x)
      obtain ⟨n, rfl⟩ := Nat.exists_eq_succ_of_ne_zero (Nat.ne_zero_of_lt enough)
      rw [List.length_nil] at enough
      rw [findLoop_succ (tcbs x (List.mem_singleton_self x)) (by omega), next, if_pos rfl, scanned_cons,
        List.find?_cons]
      cases f.exited threads x <;> rfl
  | cons y m ih =>
      have enough := fuel x List.mem_cons_self
      obtain ⟨n, rfl⟩ := Nat.exists_eq_succ_of_ne_zero (Nat.ne_zero_of_lt enough)
      rw [List.cons_append, List.cons_append, List.isChain_cons_cons] at chain
      obtain ⟨⟨next, -⟩, rest⟩ := chain
      rw [List.mem_cons, not_or] at out
      have later := ih (n := n) rest out.2 (fun c mem => tcbs c (List.mem_cons_of_mem x mem))
        fun c mem => by
          have enough := fuel c (List.mem_cons_of_mem x mem)
          rw [List.length_cons] at enough
          omega
      rw [findLoop_succ (tcbs x List.mem_cons_self) (by omega), next, if_neg (Ne.symm out.1), later,
        scanned_cons f x (y :: m), List.find?_cons (a := x)]
      cases f.exited threads x <;> rfl

omit [DecidableEq α] [DecidableEq τ] in
/-- The child that is found is the last one scanned; when none is, all have been. -/
theorem scanned_split (f : Family α τ) (kids : List α) (threads : α → List τ) :
    (∃ front c back, kids = front ++ c :: back ∧ kids.find? (f.exited threads) = some c ∧
      f.scanned kids threads = front ++ [c]) ∨
    kids.find? (f.exited threads) = none ∧ f.scanned kids threads = kids := by
  induction kids with
  | nil => exact .inr ⟨rfl, rfl⟩
  | cons x kids ih =>
      rw [scanned_cons, List.find?_cons]
      cases f.exited threads x with
      | true => exact .inl ⟨[], x, kids, rfl, rfl, rfl⟩
      | false =>
          rcases ih with ⟨front, c, back, whole, found, upTo⟩ | ⟨none, all⟩
          · exact .inl ⟨x :: front, c, back, congrArg (x :: ·) whole, found, congrArg (x :: ·) upTo⟩
          · exact .inr ⟨none, congrArg (x :: ·) all⟩

omit [DecidableEq τ] in
theorem unlockChildren_eq (lists : f.Lists kids threads) (fuel : kids.length ≤ n) :
    f.unlockChildren n (kids.find? (f.exited threads)) =
      some ((f.scanned kids threads).map .unlock) := by
  obtain ⟨head, ring, -⟩ := lists
  cases kids with
  | nil =>
      rw [unlockChildren, head]
      rfl
  | cons a l =>
      rw [unlockChildren, head, List.head?_cons]
      dsimp only
      rcases scanned_split f (a :: l) threads with ⟨front, c, back, whole, found, upTo⟩ | ⟨none, all⟩
      · -- the loop stops at the successor of the child, which may be the head
        obtain ⟨m, upTo'⟩ : ∃ m, front ++ [c] = a :: m := by
          cases front with
          | nil => exact ⟨[], congrArg (· :: []) (List.cons.inj whole).1.symm⟩
          | cons b front => exact ⟨front ++ [c], congrArg (· :: _) (List.cons.inj whole).1.symm⟩
        have parts : a :: l = a :: m ++ back := by
          rw [← upTo', List.append_assoc]
          exact whole
        obtain ⟨lastNode, rest, after⟩ := List.exists_cons_of_ne_nil
          (List.append_ne_nil_of_right_ne_nil back (List.cons_ne_nil a []))
        have chain := ring.2
        have nodup := ring.1
        rw [parts, List.append_assoc, after, List.append_cons] at chain
        have upToLast := (List.isChain_append.mp chain).1
        have next : f.links.next c = lastNode := by
          rw [← upTo', List.append_assoc] at upToLast
          exact (List.isChain_pair.mp (List.isChain_append.mp upToLast).2.1).1
        have out : lastNode ∉ m := by
          rw [parts] at nodup
          cases back with
          | nil =>
              obtain rfl : a = lastNode := (List.cons.inj after).1
              rw [List.append_nil] at nodup
              exact (List.nodup_cons.mp nodup).1
          | cons d back =>
              obtain rfl : d = lastNode := (List.cons.inj after).1
              exact fun mem => (List.disjoint_of_nodup_append nodup) (List.mem_cons_of_mem a mem)
                List.mem_cons_self
        have short : m.length < n := by
          have length := congrArg List.length parts
          simp only [List.length_cons, List.length_append] at length fuel
          omega
        rw [found, upTo, upTo']
        dsimp only
        rw [next, visits_chain upToLast out short]
        rfl
      · rw [none, all]
        dsimp only
        rw [visits_chain ring.2 (List.nodup_cons.mp ring.1).1 (Nat.lt_of_succ_le fuel)]
        rfl

theorem findExitedChild_eq (lists : f.Lists kids threads)
    (fuel : ∀ c ∈ kids, kids.length + (threads c).length ≤ n) :
    f.findExitedChild n =
      some (kids.find? (f.exited threads), (f.scanned kids threads).map .lock) := by
  obtain ⟨head, ring, tcbs⟩ := lists
  cases kids with
  | nil =>
      rw [findExitedChild, head]
      rfl
  | cons a l =>
      rw [findExitedChild, head, List.head?_cons]
      dsimp only
      refine findLoop_chain ring.2 (List.nodup_cons.mp ring.1).1 tcbs fun c mem => ?_
      have enough := fuel c mem
      rw [List.length_cons] at enough
      omega

/-- `find_exited_child` returns the first child without a live thread, after it has locked
the children up to that one, or all of them; `unlock_children` with its result unlocks the
same children, each once. -/
theorem child_scan (lists : f.Lists kids threads) :
    ∃ enough, ∀ n ≥ enough,
      f.findExitedChild n =
        some (kids.find? (f.exited threads), (f.scanned kids threads).map .lock) ∧
      f.unlockChildren n (kids.find? (f.exited threads)) =
        some ((f.scanned kids threads).map .unlock) ∧
      (f.scanned kids threads).Nodup := by
  refine ⟨kids.length + (kids.map fun c => (threads c).length).sum, fun n fuel => ⟨?_, ?_, ?_⟩⟩
  · refine findExitedChild_eq lists fun c mem => ?_
    have part := List.single_le_sum (fun _ _ => Nat.zero_le _) _
      (List.mem_map_of_mem (f := fun c => (threads c).length) mem)
    omega
  · exact unlockChildren_eq lists (by omega)
  · exact lists.ring.nodup.sublist (List.take_sublist _ _)

/-- Two children, the second of which has no live thread. -/
def pair : Family Bool Nat where
  childPcbList := some false
  links := ⟨not, not⟩
  tcbList := fun c => some (if c then 1 else 0)
  tcbLinks := ⟨id, id⟩
  state := fun t => if t = 1 then terminatedState else 1

theorem child_scan_pair : ∃ enough, ∀ n ≥ enough,
    pair.findExitedChild n = some (some true, [.lock false, .lock true]) ∧
      pair.unlockChildren n (some true) = some [.unlock false, .unlock true] := by
  have lists : pair.Lists [false, true] fun c => [if c then 1 else 0] := by
    refine ⟨rfl, ⟨by decide, ?_⟩, fun c _ => ⟨rfl, List.nodup_singleton _, ?_⟩⟩
    · simp [pair, Links.Joined]
    · simp [pair, Links.Joined]
  obtain ⟨enough, scan⟩ := child_scan lists
  exact ⟨enough, fun n le => ⟨(scan n le).1, (scan n le).2.1⟩⟩

end Family

end OsKernel.Process
