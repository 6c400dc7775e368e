/-
Circular lists (`user/libthread/linked_list.c`).

The rules are one for each function: `Holds.removeNode` and `Holds.appendNode`.
-/

import OsKernel.Lib.Nodes

namespace OsKernel.LinkedList

namespace Nodes

variable {α δ : Type} [DecidableEq α]

/-- `append_node` -/
def appendNode (N : Nodes α δ) (head : Option α) (data : δ) :
    Except Stop (Option α × Nodes α δ) :=
  match N.malloc with
  | (none, N) => return (head, N)
  | (some x, N) => do
      let N ← N.setData x data
      match head with
      | none =>
          let N ← N.setNext x x
          let N ← N.setPrevious x x
          return (some x, N)
      | some h =>
          let N ← N.setNext x h
          let N ← N.setPrevious x (← N.getPrevious h)
          let N ← N.setPrevious (← N.getNext x) x
          let N ← N.setNext (← N.getPrevious x) x
          return (some h, N)

/-- The head of the list once node `x` is out. -/
def headWithout (N : Nodes α δ) (h x : α) : Except Stop (Option α) :=
  if h = x then do
    let next ← N.getNext h
    return if h = next then none else some next
  else return some h

/-- `remove_node` -/
def removeNode (N : Nodes α δ) (head : Option α) (node : α) (fuel : Nat) :
    Except Stop (Option α × Nodes α δ) :=
  match head with
  | none => return (none, N)
  | some h => do
      match ← N.scan (fun x => return x = node) h fuel h with
      | none => return (head, N)
      | some x =>
          let head ← N.headWithout h x
          let N ← N.setNext (← N.getPrevious x) (← N.getNext x)
          let N ← N.setPrevious (← N.getNext x) (← N.getPrevious x)
          return (head, ← N.free x)

variable {N : Nodes α δ} {l : List α} {a x : α}

theorem removeNode_mono {head : Option α} {n m : Nat} {r : Option α × Nodes α δ} (le : n ≤ m)
    (ends : N.removeNode head x n = .ok r) : N.removeNode head x m = .ok r := by
  cases head with
  | none => exact ends
  | some h =>
      rw [removeNode, bind_eq_ok] at ends ⊢
      obtain ⟨found, searched, ends⟩ := ends
      exact ⟨found, scan_mono le searched, ends⟩

/-! ### The functions -/

theorem Holds.headWithout (holds : N.Holds (a :: l)) (mem : x ∈ a :: l) :
    N.headWithout a x = .ok ((a :: l).erase x).head? := by
  have out := (holds.around List.mem_cons_self).1
  rw [holds.ring.head_erase mem, Nodes.headWithout]
  by_cases same : a = x
  · subst same
    simp [getNext_eq out, bind, Except.bind, pure, Except.pure, eq_comm]
  · simp [same, pure, Except.pure]

theorem Holds.removeNode (holds : N.Holds l) (mem : x ∈ l) {fuel : Nat}
    (enough : l.length ≤ fuel) : N.removeNode l.head? x fuel = .ok ((l.erase x).head?,
      { N with
        links := N.links.unlink x
        allocated := Function.update N.allocated x false }) := by
  cases l with
  | nil => cases mem
  | cons a l =>
      obtain ⟨out, outNext, outPrevious⟩ := holds.around mem
      have found : (a :: l).find? (fun y => decide (y = x)) = some x := by
        rw [List.find?_eq_some_iff_append]
        obtain ⟨s, t, split⟩ := List.append_of_mem mem
        refine ⟨by simp, s, t, split, fun y hy => ?_⟩
        have nodup := holds.ring.nodup
        rw [split] at nodup
        simpa using (List.nodup_append.mp nodup).2.2 y hy x List.mem_cons_self
      have search : N.scan (fun y => return decide (y = x)) a fuel a = .ok (some x) :=
        (holds.scan (fun y _ => rfl) enough).trans (congrArg Except.ok found)
      have kept : Function.update N.links.next (N.links.previous x) (N.links.next x) x =
          N.links.next x := by
        by_cases self : x = N.links.previous x
        · rw [← self, Function.update_self]
        · exact Function.update_of_ne self _ _
      rw [List.head?_cons]
      unfold Nodes.removeNode
      simp only [search, holds.headWithout mem, bind, Except.bind]
      simp [getNext, getPrevious, setNext, setPrevious, free, out, outNext, outPrevious, kept,
        Links.unlink, pure, Except.pure]

/-- A node that is not in the list. -/
theorem Holds.removeNode_absent (holds : N.Holds l) (absent : x ∉ l) {fuel : Nat}
    (enough : l.length ≤ fuel) : N.removeNode l.head? x fuel = .ok (l.head?, N) := by
  cases l with
  | nil => rfl
  | cons a l =>
      have none : (a :: l).find? (fun y => decide (y = x)) = none := by
        rw [List.find?_eq_none]
        intro y mem same
        exact absent (of_decide_eq_true same ▸ mem)
      have search : N.scan (fun y => return decide (y = x)) a fuel a = .ok Option.none :=
        (holds.scan (fun y _ => rfl) enough).trans (congrArg Except.ok none)
      rw [List.head?_cons]
      unfold Nodes.removeNode
      simp only [search, bind, Except.bind]
      rfl

/-- With any fuel, `remove_node` comes to nothing else. -/
theorem Holds.of_removeNode (holds : N.Holds l) (mem : x ∈ l) {fuel : Nat}
    {r : Option α × Nodes α δ} (ends : N.removeNode l.head? x fuel = .ok r) :
    r = ((l.erase x).head?, { N with
      links := N.links.unlink x
      allocated := Function.update N.allocated x false }) := by
  have more := removeNode_mono (Nat.le_add_right fuel l.length) ends
  rw [holds.removeNode mem (Nat.le_add_left ..), Except.ok.injEq] at more
  exact more.symm

theorem appendNode_none {front : Option α} (none : N.malloc.1 = Option.none) (d : δ) :
    N.appendNode front d = .ok (front, { N with outcomes := fun n => N.outcomes (n + 1) }) := by
  rw [Nodes.appendNode, malloc_none none]
  rfl

/-- `append_node` puts a node before the one that it is given. -/
theorem Holds.appendNode_some {m : List α} (holds : N.Holds (l ++ m)) (place : m = [] → l = [])
    (got : N.malloc.1 = some x) (d : δ) :
    N.appendNode m.head? d = .ok ((m ++ [x]).head?, N.insert m.head? x d) := by
  obtain ⟨unused, found⟩ := malloc_some got
  have own : Function.update N.allocated x true x = true := Function.update_self ..
  have outside : ∀ y, N.allocated y = true → Function.update N.allocated x true y = true := by
    intro y out
    by_cases same : y = x
    · rw [same, own]
    · rw [Function.update_of_ne same, out]
  rw [Nodes.appendNode, found]
  cases m with
  | nil => simp [setData, setNext, setPrevious, Nodes.insert, Links.pushBack, Links.single, bind,
      Except.bind, pure, Except.pure]
  | cons h m =>
      have mem : h ∈ l ++ h :: m := by simp
      have out := outside h (holds.around mem).1
      have outLast := outside _ (holds.around mem).2.2
      have ne : h ≠ x := fun same => holds.new unused (same ▸ mem)
      unfold Nodes.insert
      generalize Function.update N.allocated x true = inUse at own out outLast ⊢
      simp [setData, setNext, setPrevious, getNext, getPrevious, own, out, outLast, ne.symm,
        Links.pushBack, Links.insertBefore, bind, Except.bind, pure, Except.pure]

/-- `append_node` finds no memory, or puts a node at the end of the list. -/
theorem Holds.appendNode (holds : N.Holds l) (d : δ) :
    N.appendNode l.head? d = .ok (l.head?, { N with outcomes := fun n => N.outcomes (n + 1) }) ∨
    ∃ x N', N.allocated x = false ∧ N.appendNode l.head? d = .ok ((l ++ [x]).head?, N') ∧
      N'.Holds (l ++ [x]) ∧ N'.data = Function.update N.data x d ∧
      N'.allocated = Function.update N.allocated x true := by
  cases got : N.malloc.1 with
  | none => exact .inl (appendNode_none got d)
  | some x =>
      have unused := (malloc_some got).1
      exact .inr ⟨x, N.insert l.head? x d, unused,
        Holds.appendNode_some (l := []) holds (fun _ => rfl) got d, holds.insert_head unused, rfl, rfl⟩

/-! ### Sequences -/

/-- Where `malloc` finds memory, `append_node` puts a node at the end of a list, or right
before an interior node that it is given; where it finds none nothing changes. `remove_node`
ends, and takes out just the node that it is given, if the list has it: the head is then the
first of the nodes that are left, if any. -/
theorem linked_list_sequences (holds : N.Holds l) :
    (∀ d y, N.malloc.1 = some y →
      (∃ N', N.appendNode l.head? d = .ok ((l ++ [y]).head?, N') ∧ N.Added y d (l ++ [y]) N') ∧
      ∀ s p t, l = s ++ p :: t → s ≠ [] →
        ∃ N', N.appendNode (some p) d = .ok (some p, N') ∧ N.Added y d (s ++ y :: p :: t) N') ∧
    (∀ d front, N.malloc.1 = none → ∃ N', N.appendNode front d = .ok (front, N') ∧
      N'.links = N.links ∧ N'.data = N.data ∧ N'.allocated = N.allocated) ∧
    ∀ fuel, l.length ≤ fuel →
      (∀ s p t, l = s ++ p :: t →
        ∃ N', N.removeNode l.head? p fuel = .ok ((s ++ t).head?, N') ∧ N.Taken p (s ++ t) N') ∧
      ∀ p, p ∉ l → N.removeNode l.head? p fuel = .ok (l.head?, N) := by
  refine ⟨fun d y got => ⟨?_, ?_⟩, fun d front none => ?_, fun fuel enough => ⟨?_, ?_⟩⟩
  · refine ⟨_, Holds.appendNode_some (l := []) holds (fun _ => rfl) got d, ?_⟩
    exact holds.added_head (malloc_some got).1
  · rintro s p t rfl -
    refine ⟨_, holds.appendNode_some (by simp) got d, ?_⟩
    exact holds.added (malloc_some got).1 (by simp)
  · exact ⟨_, appendNode_none none d, rfl, rfl, rfl⟩
  · rintro s p t rfl
    have removes := holds.removeNode (x := p) (by simp) enough
    have out : p ∉ s := by
      intro hs
      exact (List.nodup_append.mp holds.ring.nodup).2.2 p hs p List.mem_cons_self rfl
    rw [List.erase_append_right _ out, List.erase_cons_head] at removes
    exact ⟨_, removes, holds.taken⟩
  · exact fun p absent => holds.removeNode_absent absent enough

/-- Three nodes in a list. -/
def threeNodes (outcomes : Nat → Option Nat) : Nodes Nat Nat where
  links := ⟨fun x => (x + 1) % 3, fun x => (x + 2) % 3⟩
  data := id
  allocated x := x < 3
  outcomes := outcomes

theorem holds_threeNodes (outcomes : Nat → Option Nat) : (threeNodes outcomes).Holds [0, 1, 2] := by
  refine ⟨⟨by decide, ?_⟩, by simp [threeNodes]⟩
  simp [Links.Joined, threeNodes]

/-- A node before the last one, and the head removed. -/
theorem linked_list_sequences_three :
    (∃ N', (threeNodes fun _ => some 3).appendNode (some 2) 7 = .ok (some 2, N') ∧
      N'.Holds [0, 1, 3, 2]) ∧
    ∃ N', (threeNodes fun _ => some 3).removeNode (some 0) 0 3 = .ok (some 1, N') ∧
      N'.Holds [1, 2] := by
  obtain ⟨appends, -, removes⟩ := linked_list_sequences (holds_threeNodes fun _ => some 3)
  obtain ⟨N₁, ran, added⟩ := (appends 7 3 rfl).2 [0, 1] 2 [] rfl (by simp)
  obtain ⟨N₂, ran', taken⟩ := (removes 3 (by decide)).1 [] 0 [1, 2] rfl
  exact ⟨⟨N₁, ran, added.holds⟩, N₂, ran', taken.holds⟩

/-- Without memory no node is appended. -/
theorem append_without_memory : (threeNodes fun _ => none).Holds [0, 1, 2] ∧
    ∃ N', (threeNodes fun _ => none).appendNode (some 0) 7 = .ok (some 0, N') ∧
      N'.Holds [0, 1, 2] ∧ ∀ y, ¬ N'.Holds [0, 1, 2, y] := by
  refine ⟨holds_threeNodes _, threeNodes fun _ => none, rfl, holds_threeNodes _, fun y held => ?_⟩
  have last : (threeNodes fun _ => none).links.previous 0 = y := held.ring.previous_head
  have nodup := held.ring.nodup
  rw [← last] at nodup
  exact absurd nodup (by decide)

end Nodes

end OsKernel.LinkedList
