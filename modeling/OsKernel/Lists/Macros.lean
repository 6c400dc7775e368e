/-
The templates of circular lists (`kern/inc/list.h`).

A macro gets the pointer that it may change as an argument and returns it, so that the same
definition stands for a use on the head of a list and for one on a copy of a pointer to any
node (`free_frame`, `handle_new_pages`, `handle_remove_pages`). `POP_FRONT` and `POP_BACK`
insist on a node: `affirm`.

`PUSH_FRONT` and `PUSH_BACK` put the new node before the one that the pointer is for, and differ
in what becomes of the pointer only; `POP_FRONT` takes out the node that the pointer is for, and
`POP_BACK` the one before it. `list_macros_sequences` reads this from the head of the list.
-/

import OsKernel.Lib.Nodes

namespace OsKernel.Lists

open LinkedList

/-- Why a macro does not come to its end. -/
inductive Halt where
  /-- `affirm` fails. -/
  | affirm
  | stop (s : Stop)
deriving DecidableEq

variable {α δ : Type} [DecidableEq α]

/-- `PUSH_FRONT`: whether it succeeds, and the new front. -/
def pushFront (N : Nodes α δ) (front : Option α) (newData : δ) :
    Except Halt (Bool × Option α × Nodes α δ) :=
  Except.mapError .stop <| match N.malloc with
  | (none, N) => return (false, front, N)
  | (some newFront, N) => do
      let N ← N.setData newFront newData
      match front with
      | none =>
          let N ← N.setPrevious newFront newFront
          let N ← N.setNext newFront newFront
          return (true, some newFront, N)
      | some f =>
          let N ← N.setPrevious newFront (← N.getPrevious f)
          let N ← N.setNext newFront f
          let N ← N.setNext (← N.getPrevious newFront) newFront
          let N ← N.setPrevious (← N.getNext newFront) newFront
          return (true, some newFront, N)

/-- `PUSH_BACK` -/
def pushBack (N : Nodes α δ) (front : Option α) (newData : δ) :
    Except Halt (Bool × Option α × Nodes α δ) :=
  Except.mapError .stop <| match N.malloc with
  | (none, N) => return (false, front, N)
  | (some newBack, N) => do
      let N ← N.setData newBack newData
      match front with
      | none =>
          let N ← N.setPrevious newBack newBack
          let N ← N.setNext newBack newBack
          return (true, some newBack, N)
      | some f =>
          let N ← N.setPrevious newBack (← N.getPrevious f)
          let N ← N.setNext newBack f
          let N ← N.setNext (← N.getPrevious newBack) newBack
          let N ← N.setPrevious (← N.getNext newBack) newBack
          return (true, some f, N)

/-- The end of both `POP`s: a node is taken out and freed. -/
def release (N : Nodes α δ) (old : α) : Except Stop (Nodes α δ) := do
  let N ← N.setNext (← N.getPrevious old) (← N.getNext old)
  let N ← N.setPrevious (← N.getNext old) (← N.getPrevious old)
  N.free old

/-- `POP_FRONT`: the new front. -/
def popFront (N : Nodes α δ) (front : Option α) : Except Halt (Option α × Nodes α δ) :=
  match front with
  | none => .error .affirm
  | some oldFront => Except.mapError .stop do
      let next ← N.getNext oldFront
      return (if oldFront = next then none else some next, ← release N oldFront)

/-- `POP_BACK` -/
def popBack (N : Nodes α δ) (front : Option α) : Except Halt (Option α × Nodes α δ) :=
  match front with
  | none => .error .affirm
  | some f => Except.mapError .stop do
      let oldBack ← N.getPrevious f
      return (if f = oldBack then none else front, ← release N oldBack)

variable {N : Nodes α δ} {s m : List α} {a p q x : α} {front : Option α}

/-! ### A node more -/

theorem pushFront_none (none : N.malloc.1 = Option.none) (d : δ) : pushFront N front d =
    .ok (false, front, { N with outcomes := fun n => N.outcomes (n + 1) }) := by
  rw [pushFront, Nodes.malloc_none none]
  rfl

theorem pushBack_none (none : N.malloc.1 = Option.none) (d : δ) : pushBack N front d =
    .ok (false, front, { N with outcomes := fun n => N.outcomes (n + 1) }) := by
  rw [pushBack, Nodes.malloc_none none]
  rfl

/-- Both macros write the same, in the same order. -/
theorem push_some (holds : N.Holds (s ++ m)) (got : N.malloc.1 = some x) (d : δ) :
    pushFront N m.head? d = .ok (true, some x, N.insert m.head? x d) ∧
      pushBack N m.head? d = .ok (true, (m ++ [x]).head?, N.insert m.head? x d) := by
  obtain ⟨unused, found⟩ := Nodes.malloc_some got
  have own : Function.update N.allocated x true x = true := Function.update_self ..
  have outside : ∀ y, N.allocated y = true → Function.update N.allocated x true y = true := by
    intro y out
    by_cases same : y = x
    · rw [same, own]
    · rw [Function.update_of_ne same, out]
  rw [pushFront, pushBack, found]
  cases m with
  | nil =>
      constructor <;>
        simp [Nodes.setData, Nodes.setNext, Nodes.setPrevious, Nodes.insert, Links.pushBack,
          Links.single, bind, Except.bind, pure, Except.pure, Except.mapError]
  | cons f m =>
      have mem : f ∈ s ++ f :: m := by simp
      have out := outside f (holds.around mem).1
      have outLast := outside _ (holds.around mem).2.2
      have neLast : x ≠ N.links.previous f :=
        fun same => holds.new unused (same ▸ holds.ring.previous_mem mem)
      unfold Nodes.insert
      generalize Function.update N.allocated x true = inUse at own out outLast ⊢
      constructor <;>
        simp [Nodes.setData, Nodes.setNext, Nodes.setPrevious, Nodes.getNext, Nodes.getPrevious, own,
          out, outLast, neLast, Links.pushBack, Links.insertBefore, bind, Except.bind, pure,
          Except.pure, Except.mapError]

/-! ### A node less -/

theorem release_eq {l : List α} (holds : N.Holds l) (mem : x ∈ l) : release N x = .ok { N with
    links := N.links.unlink x
    allocated := Function.update N.allocated x false } := by
  obtain ⟨out, outNext, outPrevious⟩ := holds.around mem
  have kept : Function.update N.links.next (N.links.previous x) (N.links.next x) x =
      N.links.next x := by
    by_cases self : x = N.links.previous x
    · rw [← self, Function.update_self]
    · exact Function.update_of_ne self _ _
  simp [release, Nodes.getNext, Nodes.getPrevious, Nodes.setNext, Nodes.setPrevious, Nodes.free, out,
    outNext, outPrevious, kept, Links.unlink, bind, Except.bind]

/-- `POP_FRONT` takes out the node that the pointer is for; the pointer moves on. -/
theorem popFront_some (holds : N.Holds (s ++ p :: m)) :
    ∃ N', popFront N (some p) = .ok ((m ++ s).head?, N') ∧ N.Taken p (s ++ m) N' := by
  have mem : p ∈ s ++ p :: m := by simp
  have rotated : N.links.Ring (p :: (m ++ s)) := Links.Ring.rotate holds.ring
  have after : (m ++ s).head? = if p = N.links.next p then none else some (N.links.next p) := by
    have head := rotated.head_erase (x := p) (by simp)
    rw [List.erase_cons_head, List.head?_cons, if_pos rfl] at head
    rw [head]
    simp only [eq_comm]
  refine ⟨_, ?_, holds.taken⟩
  rw [popFront, Nodes.getNext_eq (holds.around mem).1, release_eq holds mem, after]
  rfl

/-- `POP_BACK` takes out the node before; the pointer stays, unless that was its own node. -/
theorem popBack_some (holds : N.Holds (s ++ q :: m)) {f : α} (next : (m ++ s ++ [q]).head? = some f) :
    ∃ N', popBack N (some f) = .ok ((m ++ s).head?, N') ∧ N.Taken q (s ++ m) N' := by
  have mem : q ∈ s ++ q :: m := by simp
  have rotated : N.links.Ring (m ++ s ++ [q]) := by
    have ring : N.links.Ring (q :: (m ++ s)) := Links.Ring.rotate holds.ring
    exact Links.Ring.rotate (l := [q]) ring
  have inside : f ∈ s ++ q :: m := by
    have := List.mem_of_mem_head? next
    simp only [List.mem_append, List.mem_cons, List.not_mem_nil, or_false] at this ⊢
    tauto
  have back : N.links.previous f = q := by
    cases whole : m ++ s ++ [q] with
    | nil => simp at whole
    | cons g rest =>
        rw [whole, List.head?_cons, Option.some.injEq] at next
        subst next
        rw [whole] at rotated
        rw [rotated.previous_head]
        simp only [← whole, List.getLast_append_singleton]
  have after : (if f = q then none else some f) = (m ++ s).head? := by
    cases whole : m ++ s with
    | nil =>
        rw [whole] at next
        cases next
        simp
    | cons g rest =>
        rw [whole] at next rotated
        cases next
        have ne : f ≠ q := by
          rintro rfl
          exact absurd rotated.nodup (by simp)
        rw [if_neg ne, List.head?_cons]
  refine ⟨_, ?_, holds.taken⟩
  rw [popBack, Nodes.getPrevious_eq (holds.around inside).1, back, ← after]
  simp only [bind, Except.bind, release_eq holds mem]
  rfl

/-! ### Sequences -/

/-- Where `malloc` finds no memory nothing changes. Else `PUSH_FRONT` and `PUSH_BACK` through the
head of a list put the new node at its front and at its end, and through a pointer to an
interior node right before that node. Through the head `POP_FRONT` and `POP_BACK` take out the
first and the last node; through a pointer to an interior node `POP_FRONT` takes out that node,
and `POP_BACK` the one before it. -/
theorem list_macros_sequences {l : List α} (holds : N.Holds l) :
    (∀ front d, N.malloc.1 = none → ∃ N', pushFront N front d = .ok (false, front, N') ∧
      pushBack N front d = .ok (false, front, N') ∧
      N'.links = N.links ∧ N'.data = N.data ∧ N'.allocated = N.allocated) ∧
    (∀ d y, N.malloc.1 = some y →
      (∃ N', pushFront N l.head? d = .ok (true, (y :: l).head?, N') ∧ N.Added y d (y :: l) N') ∧
      (∃ N', pushBack N l.head? d = .ok (true, (l ++ [y]).head?, N') ∧ N.Added y d (l ++ [y]) N') ∧
      ∀ s p t, l = s ++ p :: t → s ≠ [] → ∃ N', pushFront N (some p) d = .ok (true, some y, N') ∧
        pushBack N (some p) d = .ok (true, some p, N') ∧ N.Added y d (s ++ y :: p :: t) N') ∧
    (∀ a t, l = a :: t → ∃ N', popFront N l.head? = .ok (t.head?, N') ∧ N.Taken a t N') ∧
    (∀ t a, l = t ++ [a] → ∃ N', popBack N l.head? = .ok (t.head?, N') ∧ N.Taken a t N') ∧
    (l = [] → popFront N l.head? = .error .affirm ∧ popBack N l.head? = .error .affirm) ∧
    (∀ s p t, l = s ++ p :: t → s ≠ [] →
      ∃ N', popFront N (some p) = .ok ((t ++ s).head?, N') ∧ N.Taken p (s ++ t) N') ∧
    ∀ s q p t, l = s ++ q :: p :: t →
      ∃ N', popBack N (some p) = .ok (some p, N') ∧ N.Taken q (s ++ p :: t) N' := by
  refine ⟨fun front d none => ?_, fun d y got => ⟨?_, ?_, ?_⟩, ?_, ?_, ?_, ?_, ?_⟩
  · exact ⟨_, pushFront_none none d, pushBack_none none d, rfl, rfl, rfl⟩
  · exact ⟨_, (push_some (s := []) holds got d).1,
      Nodes.Holds.added (l := []) holds (Nodes.malloc_some got).1 fun _ => rfl⟩
  · exact ⟨_, (push_some (s := []) holds got d).2, holds.added_head (Nodes.malloc_some got).1⟩
  · rintro s p t rfl -
    obtain ⟨front, back⟩ := push_some holds got d
    exact ⟨_, front, back, holds.added (Nodes.malloc_some got).1 (by simp)⟩
  · rintro a t rfl
    obtain ⟨N', pops, taken⟩ := popFront_some (s := []) holds
    rw [List.append_nil] at pops
    exact ⟨N', pops, taken⟩
  · rintro t a rfl
    obtain ⟨f, first⟩ : ∃ f, (t ++ [a]).head? = some f := by cases t <;> simp
    obtain ⟨N', pops, taken⟩ := popBack_some (m := []) holds first
    rw [List.append_nil] at taken
    exact ⟨N', first ▸ pops, taken⟩
  · rintro rfl
    exact ⟨rfl, rfl⟩
  · rintro s p t rfl -
    exact popFront_some holds
  · rintro s q p t rfl
    exact popBack_some (m := p :: t) holds rfl

/-- A pool of three frames. -/
def pool : Nodes Nat Nat where
  links := ⟨fun x => (x + 1) % 3, fun x => (x + 2) % 3⟩
  data x := 0x1001000 + x * 0x1000
  allocated x := x < 3
  outcomes _ := some 3

theorem holds_pool : pool.Holds [0, 1, 2] := by
  refine ⟨⟨by decide, ?_⟩, by simp [pool]⟩
  simp [Links.Joined, pool]

/-- A frame before the last one, and the first one taken. -/
theorem list_macros_sequences_pool :
    (∃ N', pushFront pool (some 2) 0x1002800 = .ok (true, some 3, N') ∧ N'.Holds [0, 1, 3, 2]) ∧
      ∃ N', popFront pool (some 0) = .ok (some 1, N') ∧ N'.Holds [1, 2] := by
  obtain ⟨-, pushes, pops, -⟩ := list_macros_sequences holds_pool
  obtain ⟨N₁, pushed, -, added⟩ := (pushes 0x1002800 3 rfl).2.2 [0, 1] 2 [] rfl (by simp)
  obtain ⟨N₂, popped, taken⟩ := pops 0 [1, 2] rfl
  exact ⟨⟨N₁, pushed, added.holds⟩, N₂, popped, taken.holds⟩

/-- `POP_BACK` through a pointer to the last node takes out the node before it. -/
theorem popBack_takes_previous : pool.Holds [0, 1, 2] ∧
    ∃ N', popBack pool (some 2) = .ok (some 2, N') ∧ N'.Holds [0, 2] ∧ ¬ N'.Holds [0, 1] := by
  obtain ⟨N', popped, taken⟩ := popBack_some (s := [0]) (m := [2]) holds_pool rfl
  refine ⟨holds_pool, N', popped, taken.holds, fun held => ?_⟩
  have freed := held.allocated 1 (by simp)
  rw [taken.allocated, Function.update_self] at freed
  cases freed

end OsKernel.Lists
