/-
The nodes of circular lists, from `malloc`.

A call stops at a node that is not allocated: `freed`. Every loop is given fuel, and a loop
that uses it up stops as well. `Holds N l` says that the nodes `l` are allocated and form a
list. The rules are:

* `Holds.scan`: a loop over a list that may end early;
* `Holds.insert`, `Holds.unlink`: a new node in the list, and a node out of it.
-/

import OsKernel.Lib.Ring

namespace OsKernel.LinkedList

/-- Why a call does not return. -/
inductive Stop where
  /-- It reads, writes or frees a node that is not allocated. -/
  | freed
  | fuel
deriving DecidableEq

/-- A call that returns has returned from its first part. -/
theorem bind_eq_ok {β γ : Type} {x : Except Stop β} {f : β → Except Stop γ} {r : γ} :
    (x >>= f) = .ok r ↔ ∃ b, x = .ok b ∧ f b = .ok r := by
  cases x <;> simp [bind, Except.bind]

/-- The memory of all nodes. -/
structure Nodes (α δ : Type) where
  links : Links α
  data : α → δ
  allocated : α → Bool
  /-- What the next calls of `malloc` find. -/
  outcomes : Nat → Option α

namespace Nodes

variable {α δ : Type} [DecidableEq α]

section
omit [DecidableEq α]

def getNext (N : Nodes α δ) (x : α) : Except Stop α :=
  if N.allocated x then .ok (N.links.next x) else .error .freed

def getPrevious (N : Nodes α δ) (x : α) : Except Stop α :=
  if N.allocated x then .ok (N.links.previous x) else .error .freed

def getData (N : Nodes α δ) (x : α) : Except Stop δ :=
  if N.allocated x then .ok (N.data x) else .error .freed

end

def setNext (N : Nodes α δ) (x y : α) : Except Stop (Nodes α δ) :=
  if N.allocated x then
    .ok { N with links := { N.links with next := Function.update N.links.next x y } }
  else .error .freed

def setPrevious (N : Nodes α δ) (x y : α) : Except Stop (Nodes α δ) :=
  if N.allocated x then
    .ok { N with links := { N.links with previous := Function.update N.links.previous x y } }
  else .error .freed

def setData (N : Nodes α δ) (x : α) (d : δ) : Except Stop (Nodes α δ) :=
  if N.allocated x then .ok { N with data := Function.update N.data x d } else .error .freed

/-- `malloc`, which never gives memory that is allocated. -/
def malloc (N : Nodes α δ) : Option α × Nodes α δ :=
  let N' := { N with outcomes := fun n => N.outcomes (n + 1) }
  match N.outcomes 0 with
  | none => (none, N')
  | some x =>
      if N.allocated x then (none, N')
      else (some x, { N' with allocated := Function.update N.allocated x true })

/-- `free` -/
def free (N : Nodes α δ) (x : α) : Except Stop (Nodes α δ) :=
  if N.allocated x then .ok { N with allocated := Function.update N.allocated x false }
  else .error .freed

/-- A loop from `x` to the node before `head`, which ends early at a node that it looks for. -/
def scan (N : Nodes α δ) (found : α → Except Stop Bool) (head : α) :
    Nat → α → Except Stop (Option α)
  | 0, _ => .error .fuel
  | n + 1, x => do
      if ← found x then return some x
      let next ← N.getNext x
      if next = head then return none
      scan N found head n next

/-- These nodes are allocated and form a list. -/
structure Holds (N : Nodes α δ) (l : List α) : Prop where
  ring : N.links.Ring l
  allocated : ∀ x ∈ l, N.allocated x = true

variable {N : Nodes α δ} {l : List α} {a x y : α}

/-! ### Nodes that are allocated -/

section
omit [DecidableEq α]

theorem getNext_eq (out : N.allocated x = true) : N.getNext x = .ok (N.links.next x) := if_pos out

theorem getPrevious_eq (out : N.allocated x = true) :
    N.getPrevious x = .ok (N.links.previous x) := if_pos out

theorem getData_eq (out : N.allocated x = true) : N.getData x = .ok (N.data x) := if_pos out

theorem getData_freed (out : N.allocated x = false) : N.getData x = .error .freed :=
  if_neg (by simp [out])

/-- What is known of a node of a list. -/
theorem Holds.around (holds : N.Holds l) (mem : x ∈ l) : N.allocated x = true ∧
    N.allocated (N.links.next x) = true ∧ N.allocated (N.links.previous x) = true :=
  ⟨holds.allocated x mem, holds.allocated _ (holds.ring.next_mem mem),
    holds.allocated _ (holds.ring.previous_mem mem)⟩

end

/-! ### Loops over a list -/

theorem scan_chain {found : α → Except Stop Bool} {p : α → Bool} {head : α} {n : Nat}
    {m : List α} (chain : (x :: m ++ [head]).IsChain N.links.Joined) (absent : head ∉ m)
    (out : ∀ y ∈ x :: m, N.allocated y = true) (tests : ∀ y ∈ x :: m, found y = .ok (p y))
    (fuel : m.length < n) : N.scan found head n x = .ok ((x :: m).find? p) := by
  induction m generalizing x n with
  | nil =>
      obtain ⟨k, rfl⟩ := Nat.exists_eq_add_of_lt fuel
      have joined : N.links.next x = head := (List.isChain_pair.mp chain).1
      rw [scan, tests x List.mem_cons_self, getNext_eq (out x List.mem_cons_self), joined]
      cases test : p x <;> simp [test, bind, Except.bind, pure, Except.pure]
  | cons y m ih =>
      cases n with
      | zero => simp at fuel
      | succ n =>
          rw [List.cons_append, List.cons_append, List.isChain_cons_cons] at chain
          obtain ⟨⟨next, -⟩, rest⟩ := chain
          rw [List.mem_cons, not_or] at absent
          have step := ih rest absent.2 (fun z mem => out z (List.mem_cons_of_mem x mem))
            (fun z mem => tests z (List.mem_cons_of_mem x mem)) (by simpa using fuel)
          rw [scan, tests x List.mem_cons_self, getNext_eq (out x List.mem_cons_self), next]
          cases test : p x with
          | true => simp [test, bind, Except.bind, pure, Except.pure]
          | false =>
              rw [List.find?_cons_of_neg (by simp [test])]
              simpa [bind, Except.bind, Ne.symm absent.1] using step

/-- A loop over a whole list finds the first node that it looks for. -/
theorem Holds.scan (holds : N.Holds (a :: l)) {found : α → Except Stop Bool} {p : α → Bool}
    {n : Nat} (tests : ∀ x ∈ a :: l, found x = .ok (p x)) (fuel : l.length < n) :
    N.scan found a n a = .ok ((a :: l).find? p) :=
  scan_chain holds.ring.2 (List.nodup_cons.mp holds.ring.nodup).1 holds.allocated tests fuel

/-- More fuel changes nothing for a loop that ends. -/
theorem scan_mono {found : α → Except Stop Bool} {head : α} {n m : Nat} {r : Option α}
    (le : n ≤ m) (ends : N.scan found head n x = .ok r) : N.scan found head m x = .ok r := by
  induction n generalizing x m with
  | zero => cases ends
  | succ n ih =>
      obtain ⟨m, rfl⟩ : ∃ k, m = k + 1 := ⟨m - 1, by omega⟩
      rw [scan, bind_eq_ok] at ends ⊢
      obtain ⟨test, tested, ends⟩ := ends
      refine ⟨test, tested, ?_⟩
      cases test with
      | true => exact ends
      | false =>
          simp only [Bool.false_eq_true, if_false, bind_eq_ok] at ends ⊢
          obtain ⟨next, read, ends⟩ := ends
          refine ⟨next, read, ?_⟩
          by_cases last : next = head
          · rw [if_pos last] at ends ⊢
            exact ends
          · rw [if_neg last] at ends ⊢
            exact ih (by omega) ends

/-! ### Edits -/

/-- A new node with its data, before the node that `front` points to or on its own. -/
def insert (N : Nodes α δ) (front : Option α) (x : α) (d : δ) : Nodes α δ where
  links := N.links.pushBack front x
  data := Function.update N.data x d
  allocated := Function.update N.allocated x true
  outcomes n := N.outcomes (n + 1)

omit [DecidableEq α] in
theorem Holds.new (holds : N.Holds l) (unused : N.allocated x = false) : x ∉ l :=
  fun mem => by simp [holds.allocated x mem] at unused

/-- A node put before any node of the list, or into an empty one. -/
theorem Holds.insert {m : List α} {d : δ} (holds : N.Holds (l ++ m)) (unused : N.allocated x = false)
    (place : m = [] → l = []) : (N.insert m.head? x d).Holds (l ++ x :: m) := by
  refine ⟨holds.ring.pushBefore (holds.new unused) place, fun y mem => ?_⟩
  by_cases same : y = x
  · rw [same]
    exact Function.update_self ..
  · refine (Function.update_of_ne same _ _).trans (holds.allocated y ?_)
    simp only [List.mem_append, List.mem_cons] at mem ⊢
    tauto

/-- A node put before the head is the last one. -/
theorem Holds.insert_head {d : δ} (holds : N.Holds l) (unused : N.allocated x = false) :
    (N.insert l.head? x d).Holds (l ++ [x]) := by
  have front : (N.insert l.head? x d).Holds ([x] ++ l) :=
    holds.insert (l := []) unused fun _ => rfl
  refine ⟨Links.Ring.rotate front.ring, fun y mem => front.allocated y ?_⟩
  simp only [List.mem_append] at mem ⊢
  tauto

/-- A list apart from the one that gets a node. -/
theorem Holds.of_insert {k m : List α} {d : δ} (holds : N.Holds k) (target : N.Holds m)
    (unused : N.allocated x = false) (apart : List.Disjoint k m) :
    (N.insert m.head? x d).Holds k := by
  have out := holds.new unused
  refine ⟨holds.ring.of_pushBack target.ring out apart, fun y mem => ?_⟩
  have ne : y ≠ x := fun same => out (same ▸ mem)
  exact (Function.update_of_ne ne _ _).trans (holds.allocated y mem)

/-- What is left once a node is out of the list and given to `free`. -/
theorem Holds.unlink (holds : N.Holds l) (mem : x ∈ l) : Holds { N with
    links := N.links.unlink x
    allocated := Function.update N.allocated x false } (l.erase x) := by
  refine ⟨holds.ring.erase mem, fun y left => ?_⟩
  have ne : y ≠ x := by
    rintro rfl
    exact holds.ring.nodup.not_mem_erase left
  exact (Function.update_of_ne ne _ _).trans (holds.allocated y (List.mem_of_mem_erase left))

/-- A list apart from the one that loses a node. -/
theorem Holds.of_unlink {k : List α} (holds : N.Holds k) (target : N.Holds l) (mem : x ∈ l)
    (apart : List.Disjoint k l) : Holds { N with
      links := N.links.unlink x
      allocated := Function.update N.allocated x false } k := by
  refine ⟨holds.ring.of_unlink target.ring mem apart, fun y hy => ?_⟩
  have ne : y ≠ x := fun same => apart hy (same ▸ mem)
  exact (Function.update_of_ne ne _ _).trans (holds.allocated y hy)

/-- Node `x` with data `d` is new and `l` is the list it is in; all else is as it was. -/
structure Added (N : Nodes α δ) (x : α) (d : δ) (l : List α) (N' : Nodes α δ) : Prop where
  new : N.allocated x = false
  holds : N'.Holds l
  data : N'.data = Function.update N.data x d
  allocated : N'.allocated = Function.update N.allocated x true
  others : ∀ k, N.Holds k → List.Disjoint k l → N'.Holds k

/-- Node `x` is given to `free` and `l` is the list it was in; all else is as it was. -/
structure Taken (N : Nodes α δ) (x : α) (l : List α) (N' : Nodes α δ) : Prop where
  holds : N'.Holds l
  data : N'.data = N.data
  allocated : N'.allocated = Function.update N.allocated x false
  others : ∀ k, N.Holds k → x ∉ k → List.Disjoint k l → N'.Holds k

theorem Holds.added {m : List α} {d : δ} (holds : N.Holds (l ++ m)) (unused : N.allocated x = false)
    (place : m = [] → l = []) : N.Added x d (l ++ x :: m) (N.insert m.head? x d) := by
  refine ⟨unused, holds.insert unused place, rfl, rfl, fun k other apart => ?_⟩
  have target : N.Holds (m ++ l) :=
    ⟨Links.Ring.rotate holds.ring, fun y mem => holds.allocated y (List.mem_append.mpr
      (List.mem_append.mp mem).symm)⟩
  have head : (m ++ l).head? = m.head? := by
    cases m with
    | nil => rw [place rfl]; rfl
    | cons a m => rfl
  rw [← head]
  refine other.of_insert target unused fun y hy mem => apart hy ?_
  simp only [List.mem_append, List.mem_cons] at mem ⊢
  tauto

/-- The same before the head, which makes it the last node. -/
theorem Holds.added_head {d : δ} (holds : N.Holds l) (unused : N.allocated x = false) :
    N.Added x d (l ++ [x]) (N.insert l.head? x d) := by
  refine ⟨unused, holds.insert_head unused, rfl, rfl, fun k other apart => ?_⟩
  exact other.of_insert holds unused fun y hy mem => apart hy (List.mem_append_left _ mem)

theorem Holds.taken {m : List α} (holds : N.Holds (l ++ x :: m)) : N.Taken x (l ++ m) { N with
    links := N.links.unlink x
    allocated := Function.update N.allocated x false } := by
  have mem : x ∈ l ++ x :: m := by simp
  have out : x ∉ l := by
    intro hl
    exact (List.nodup_append.mp holds.ring.nodup).2.2 x hl x List.mem_cons_self rfl
  have left := holds.unlink mem
  rw [List.erase_append_right _ out, List.erase_cons_head] at left
  refine ⟨left, rfl, rfl, fun k other absent apart => other.of_unlink holds mem fun y hy hl => ?_⟩
  have ne : y ≠ x := fun same => absent (same ▸ hy)
  refine apart hy ?_
  simp only [List.mem_append, List.mem_cons] at hl ⊢
  tauto

theorem malloc_cases (N : Nodes α δ) : (N.malloc).1 = none ∧
      N.malloc.2 = { N with outcomes := fun n => N.outcomes (n + 1) } ∨
    ∃ x, N.allocated x = false ∧ N.malloc.1 = some x ∧ N.malloc.2 = { N with
      allocated := Function.update N.allocated x true
      outcomes := fun n => N.outcomes (n + 1) } := by
  unfold malloc
  cases N.outcomes 0 with
  | none => exact .inl ⟨rfl, rfl⟩
  | some x =>
      dsimp only
      split
      · exact .inl ⟨rfl, rfl⟩
      · rename_i unused
        exact .inr ⟨x, by simpa using unused, rfl, rfl⟩

theorem malloc_none (none : N.malloc.1 = Option.none) :
    N.malloc = (Option.none, { N with outcomes := fun n => N.outcomes (n + 1) }) := by
  obtain ⟨got, rest⟩ | ⟨x, -, got, -⟩ := N.malloc_cases
  · exact Prod.ext got rest
  · rw [none] at got
    cases got

theorem malloc_some (got : N.malloc.1 = some x) : N.allocated x = false ∧
    N.malloc = (some x, { N with
      allocated := Function.update N.allocated x true
      outcomes := fun n => N.outcomes (n + 1) }) := by
  obtain ⟨none, -⟩ | ⟨y, unused, got', rest⟩ := N.malloc_cases
  · rw [none] at got
    cases got
  · rw [got, Option.some.injEq] at got'
    subst got'
    exact ⟨unused, Prod.ext got rest⟩

end Nodes

end OsKernel.LinkedList
