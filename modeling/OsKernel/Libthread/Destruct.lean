/-
The end of all threads (`destruct_each_thread` of `user/libthread/thread.c`).

Each round releases what the last thread of `thread_info_chain` holds, and removes the node
before it. `cond_destroy` and the `free` of a stack touch no node of the chain: they are
events, known by the record they are about.
-/

import OsKernel.Libthread.LinkedList

namespace OsKernel.Destruct

open LinkedList

structure State (α ρ : Type) where
  /-- The data of a node is its `thread_info`. -/
  nodes : Nodes α ρ
  threadInfoChain : Option α
  /-- The records whose `status_ready` was given to `cond_destroy`. -/
  destroyed : List ρ
  /-- The records whose `stack_space` was given to `free`. -/
  stackFrees : List ρ

namespace State

variable {α ρ : Type} [DecidableEq α]

/-- `destruct_each_thread` -/
def destructEachThread : Nat → State α ρ → Except Stop (State α ρ)
  | 0, _ => .error .fuel
  | n + 1, s => match s.threadInfoChain with
    | none => return s
    | some head => do
        let last ← s.nodes.getPrevious head
        let info ← s.nodes.getData last
        let node ← s.nodes.getPrevious last
        let (chain, nodes) ← s.nodes.removeNode (some head) node n
        destructEachThread n
          { nodes := nodes
            threadInfoChain := chain
            destroyed := s.destroyed ++ [info]
            stackFrees := s.stackFrees ++ [info] }

/-- The chain has these nodes. -/
structure Chain (s : State α ρ) (l : List α) : Prop where
  holds : s.nodes.Holds l
  head : s.threadInfoChain = l.head?

/-- The node that a round removes. -/
def victim (front : List α) (last : α) : α := front.getLast?.getD last

/-- The state after a round. -/
def next (s : State α ρ) (front : List α) (last : α) : State α ρ where
  nodes := { s.nodes with
    links := s.nodes.links.unlink (victim front last)
    allocated := Function.update s.nodes.allocated (victim front last) false }
  threadInfoChain := ((front ++ [last]).erase (victim front last)).head?
  destroyed := s.destroyed ++ [s.nodes.data last]
  stackFrees := s.stackFrees ++ [s.nodes.data last]

variable {s s' : State α ρ} {l front : List α} {last : α}

section
omit [DecidableEq α]

theorem victim_mem (front : List α) (last : α) : victim front last ∈ front ++ [last] := by
  rcases List.eq_nil_or_concat' front with rfl | ⟨f, p, rfl⟩ <;> simp [victim]

theorem Chain.previous_last (chain : s.Chain (front ++ [last])) :
    s.nodes.links.previous last = victim front last := by
  have back := (Links.Ring.rotate chain.holds.ring).previous_head
  rcases List.eq_nil_or_concat' front with rfl | ⟨f, p, rfl⟩
  · simpa [victim] using back
  · simpa [victim] using back

end

theorem Chain.next (chain : s.Chain (front ++ [last])) :
    (s.next front last).Chain ((front ++ [last]).erase (victim front last)) :=
  ⟨chain.holds.unlink (victim_mem front last), rfl⟩

/-- A round of the loop. -/
theorem Chain.round (chain : s.Chain (front ++ [last])) {n : Nat} (enough : front.length < n) :
    destructEachThread (n + 1) s = destructEachThread n (s.next front last) := by
  have long : (front ++ [last]).length ≤ n := by
    rw [List.length_append, List.length_singleton]
    exact enough
  have removes := chain.holds.removeNode (victim_mem front last) long
  obtain ⟨h, t, split⟩ : ∃ h t, front ++ [last] = h :: t := List.exists_cons_of_ne_nil (by simp)
  have head : s.threadInfoChain = some h := by rw [chain.head, split, List.head?_cons]
  have ring := chain.holds.ring
  have toLast : s.nodes.links.previous h = last := by
    rw [split] at ring
    simp only [ring.previous_head, ← split, List.getLast_append_singleton]
  rw [split, List.head?_cons, ← split] at removes
  have outHead := chain.holds.allocated h (by simp [split])
  have outLast := chain.holds.allocated last (by simp)
  simp only [destructEachThread, head, Nodes.getPrevious_eq outHead, toLast,
    Nodes.getData_eq outLast, Nodes.getPrevious_eq outLast, chain.previous_last, removes, bind,
    Except.bind]
  rfl

/-- The loop ends with an empty chain; each round has released what the last thread holds. -/
theorem Chain.destructs {n : Nat} (chain : s.Chain (front ++ [last]))
    (enough : front.length + 2 < n) : ∃ s' : State α ρ, destructEachThread n s = .ok s' ∧
      s'.threadInfoChain = none ∧
      s'.destroyed = s.destroyed ++ List.replicate (front.length + 1) (s.nodes.data last) ∧
      s'.stackFrees = s.stackFrees ++ List.replicate (front.length + 1) (s.nodes.data last) := by
  induction front using List.reverseRecOn generalizing s n with
  | nil =>
      obtain ⟨m, rfl⟩ : ∃ m, n = m + 2 := ⟨n - 2, by omega⟩
      have empty : (s.next [] last).threadInfoChain = none := by simp [State.next, victim]
      refine ⟨s.next [] last, ?_, empty, rfl, rfl⟩
      rw [chain.round (by simp), destructEachThread, empty]
      rfl
  | append_singleton f p ih =>
      obtain ⟨m, rfl⟩ : ∃ m, n = m + 1 := ⟨n - 1, by omega⟩
      rw [List.length_append, List.length_singleton] at enough ⊢
      have rest : (f ++ [p] ++ [last]).erase (victim (f ++ [p]) last) = f ++ [last] := by
        have absent : p ∉ f := by
          intro mem
          have nodup := chain.holds.ring.nodup
          rw [List.append_assoc] at nodup
          exact (List.nodup_append.mp nodup).2.2 p mem p (by simp) rfl
        simp [victim, List.erase_append_right _ absent]
      have after := chain.next
      rw [rest] at after
      obtain ⟨s', ends, empty, destroyed, stackFrees⟩ := ih (n := m) after (by omega)
      have data : (s.next (f ++ [p]) last).nodes.data last = s.nodes.data last := rfl
      refine ⟨s', (chain.round (by simp; omega)).trans ends, empty, ?_, ?_⟩
      · rw [destroyed, data, List.replicate_succ (n := f.length + 1)]
        simp [State.next]
      · rw [stackFrees, data, List.replicate_succ (n := f.length + 1)]
        simp [State.next]

/-- More fuel changes nothing for a loop that ends. -/
theorem destructEachThread_mono {n m : Nat} (le : n ≤ m) (ends : destructEachThread n s = .ok s') :
    destructEachThread m s = .ok s' := by
  induction n generalizing s m with
  | zero => cases ends
  | succ n ih =>
      obtain ⟨m, rfl⟩ : ∃ k, m = k + 1 := ⟨m - 1, by omega⟩
      rw [destructEachThread] at ends ⊢
      cases chain : s.threadInfoChain with
      | none =>
          rw [chain] at ends
          exact ends
      | some head =>
          rw [chain] at ends
          simp only [bind_eq_ok] at ends ⊢
          obtain ⟨last, toLast, info, read, node, before, removed, removes, ends⟩ := ends
          exact ⟨last, toLast, info, read, node, before, removed,
            Nodes.removeNode_mono (by omega) removes, ih (by omega) ends⟩

/-- Whatever fuel the loop ends with, it has released what the last thread holds in every
round. -/
theorem Chain.released {n : Nat} (chain : s.Chain (front ++ [last]))
    (ends : destructEachThread n s = .ok s') :
    s'.destroyed = s.destroyed ++ List.replicate (front.length + 1) (s.nodes.data last) := by
  obtain ⟨s'', ends', -, destroyed, -⟩ := chain.destructs (n := n + front.length + 3) (by omega)
  have same := destructEachThread_mono (m := n + front.length + 3) (by omega) ends
  rw [ends', Except.ok.injEq] at same
  rw [← same, destroyed]

/-- The call ends with no chain, and everything that a record holds is released once. -/
def DestructsEach [DecidableEq ρ] (N : Nodes α ρ) (l : List α) : Prop :=
  ∃ n s', destructEachThread n ⟨N, l.head?, [], []⟩ = .ok s' ∧ s'.threadInfoChain = none ∧
    ∀ info ∈ l.map N.data, s'.destroyed.count info = 1 ∧ s'.stackFrees.count info = 1

/-- `destruct_each_thread` does its task for a chain of one thread, and for no other. -/
theorem destructsEach_iff [DecidableEq ρ] {N : Nodes α ρ} {l : List α} (holds : N.Holds l)
    (nonempty : l ≠ []) : DestructsEach N l ↔ l.length = 1 := by
  obtain ⟨front, last, rfl⟩ := (List.eq_nil_or_concat' l).resolve_left nonempty
  have chain : State.Chain ⟨N, (front ++ [last]).head?, [], []⟩ (front ++ [last]) := ⟨holds, rfl⟩
  constructor
  · rintro ⟨n, s', ends, -, once⟩
    have destroyed := chain.released ends
    have count := (once (N.data last) (by simp)).1
    rw [destroyed, List.nil_append, List.count_replicate_self] at count
    simpa using count
  · intro single
    have alone : front = [] := by simpa using single
    subst alone
    obtain ⟨s', ends, empty, destroyed, stackFrees⟩ := chain.destructs (n := 3) (by simp)
    refine ⟨3, s', ends, empty, fun info mem => ?_⟩
    obtain rfl : info = N.data last := by simpa using mem
    rw [destroyed, stackFrees]
    simp

/-- The root thread and a second one. -/
def pair : Nodes Bool Nat where
  links := ⟨not, not⟩
  data b := b.toNat
  allocated _ := true
  outcomes _ := none

theorem holds_pair : pair.Holds [false, true] := by
  refine ⟨⟨by decide, ?_⟩, fun _ _ => rfl⟩
  simp [Links.Joined, pair]

/-- The root thread alone. -/
def alone : Nodes Bool Nat := { pair with links := ⟨id, id⟩ }

theorem holds_alone : alone.Holds [false] := by
  refine ⟨⟨by decide, ?_⟩, fun _ _ => rfl⟩
  simp [Links.Joined, alone]

theorem destructsEach_alone : DestructsEach alone [false] :=
  (destructsEach_iff holds_alone (by simp)).mpr rfl

/-- The second thread is released twice, and the root thread never. -/
theorem destructs_pair : pair.Holds [false, true] ∧ ¬ DestructsEach pair [false, true] ∧
    ∃ s', destructEachThread 5 ⟨pair, some false, [], []⟩ = .ok s' ∧ s'.destroyed = [1, 1] := by
  have chain : State.Chain ⟨pair, some false, [], []⟩ ([false] ++ [true]) := ⟨holds_pair, rfl⟩
  refine ⟨holds_pair, ?_, ?_⟩
  · rintro ⟨n, s', ends, -, once⟩
    have never := (once 0 (by decide)).1
    rw [chain.released ends] at never
    exact absurd never (by decide)
  · obtain ⟨s', ends, -, destroyed, -⟩ := chain.destructs (n := 5) (by decide)
    exact ⟨s', ends, destroyed⟩

end State

end OsKernel.Destruct
