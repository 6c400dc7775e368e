/-
Circular doubly linked lists, by their links alone.

`Links` holds the two pointers of every node, whatever else the nodes hold.
`Ring L l` says that the nodes of `l`, in order, form a circular list. The rules
are one for each edit a program makes:

* `Ring.insertBefore`, `Ring.unlink`, `Ring.splice`: a node put before the head,
  the head taken out, a second ring put at the end of a first;
* `Ring.rotate`: a ring may be read from any of its nodes, which gives the edits
  at any other place;
* `Ring.congr`: a ring stays where no link of its nodes is written, with the
  lemmas that say which links an edit writes;
* `Ring.erase`, `Ring.pushBack`, `Ring.pushBefore`: the same edits of a list that is held
  by a pointer to its head;
* `Ring.walk`, `Ring.reverse`, `Ring.walk_back`: a loop that follows the links sees the
  nodes in order.
-/

import Mathlib.Data.List.Chain
import Mathlib.Data.List.Nodup
import Mathlib.Logic.Function.Basic
import Mathlib.Tactic.Common

namespace OsKernel

/-- The pointers of all nodes. -/
@[ext] structure Links (α : Type) where
  next : α → α
  previous : α → α

namespace Links

variable {α : Type}

/-- `y` comes right after `x`. -/
def Joined (L : Links α) (x y : α) : Prop := L.next x = y ∧ L.previous y = x

/-- The nodes, in order, form a circular list. -/
def Ring (L : Links α) : List α → Prop
  | [] => True
  | a :: l => (a :: l).Nodup ∧ (a :: l ++ [a]).IsChain L.Joined

/-- The nodes that a loop visits that follows `next` until it is back at `head`. -/
def walk [DecidableEq α] (L : Links α) (head : α) : Nat → α → List α
  | 0, _ => []
  | n + 1, x => x :: if L.next x = head then [] else walk L head n (L.next x)

/-- The same lists read backwards. -/
def swap (L : Links α) : Links α := ⟨L.previous, L.next⟩

section

variable [DecidableEq α]

/-- A list of one node. -/
def single (L : Links α) (x : α) : Links α :=
  ⟨Function.update L.next x x, Function.update L.previous x x⟩

/-- Put node `x` before node `d`. -/
def insertBefore (L : Links α) (x d : α) : Links α where
  next := Function.update (Function.update L.next x d) (L.previous d) x
  previous := Function.update (Function.update L.previous x (L.previous d)) d x

/-- The four assignments that put node `x` before node `d`, in order; `x` may be `d`. -/
def place (L : Links α) (x d : α) : Links α :=
  let L : Links α := { L with next := Function.update L.next x d }
  let L : Links α := { L with previous := Function.update L.previous x (L.previous d) }
  let L : Links α := { L with previous := Function.update L.previous (L.next x) x }
  { L with next := Function.update L.next (L.previous x) x }

/-- Take node `x` out. -/
def unlink (L : Links α) (x : α) : Links α where
  next := Function.update L.next (L.previous x) (L.next x)
  previous := Function.update L.previous (L.next x) (L.previous x)

/-- Put the list of `b` at the end of the list of `a`. -/
def splice (L : Links α) (a b : α) : Links α where
  next := Function.update (Function.update L.next (L.previous a) b) (L.previous b) a
  previous := Function.update (Function.update L.previous b (L.previous a)) a (L.previous b)

/-- Put a new node at the end of the list that starts at `front`. -/
def pushBack (L : Links α) (front : Option α) (x : α) : Links α :=
  match front with
  | none => L.single x
  | some f => L.insertBefore x f

end

/-! ### Reading a ring -/

variable {L L' : Links α} {a x y : α} {l m : List α}

theorem Ring.nodup (h : L.Ring l) : l.Nodup := by
  cases l with
  | nil => exact List.nodup_nil
  | cons a l => exact h.1

/-- The last node and the first one are joined. -/
theorem ring_cons_iff : L.Ring (a :: l) ↔ (a :: l).Nodup ∧ (a :: l).IsChain L.Joined ∧
    L.Joined ((a :: l).getLast (List.cons_ne_nil a l)) a := by
  rw [Ring, List.isChain_append]
  simp [List.getLast?_eq_some_getLast]

theorem Ring.last (h : L.Ring (a :: l)) :
    L.Joined ((a :: l).getLast (List.cons_ne_nil a l)) a := (ring_cons_iff.mp h).2.2

theorem Ring.previous_head (h : L.Ring (a :: l)) :
    L.previous a = (a :: l).getLast (List.cons_ne_nil a l) := h.last.2

/-- The node after the head. -/
theorem Ring.next_head (h : L.Ring (a :: l)) : L.next a = (l ++ [a]).head (by simp) := by
  cases l with
  | nil => exact (ring_cons_iff.mp h).2.2.1
  | cons b l => exact (List.isChain_cons_cons.mp (ring_cons_iff.mp h).2.1).1.1

/-- A ring may be read from any of its nodes. -/
theorem Ring.rotate (h : L.Ring (l ++ m)) : L.Ring (m ++ l) := by
  cases l with
  | nil => simpa using h
  | cons a l =>
      cases m with
      | nil => simpa using h
      | cons b m =>
          obtain ⟨nodup, chain⟩ := h
          have nodup' : (b :: m ++ a :: l).Nodup := List.perm_append_comm.nodup_iff.mp nodup
          refine ⟨nodup', ?_⟩
          change (a :: l ++ b :: m ++ [a]).IsChain L.Joined at chain
          change (b :: m ++ a :: l ++ [b]).IsChain L.Joined
          rw [List.append_assoc] at chain ⊢
          obtain ⟨first, second⟩ := List.isChain_split.mp chain
          exact List.isChain_split.mpr ⟨second, first⟩

theorem Ring.next_mem (h : L.Ring l) (mem : x ∈ l) : L.next x ∈ l := by
  obtain ⟨s, t, rfl⟩ := List.append_of_mem mem
  have next := (Ring.rotate h).next_head
  have : L.next x ∈ t ++ s ++ [x] := by rw [next]; exact List.head_mem _
  simp only [List.mem_append, List.mem_cons, List.not_mem_nil, or_false] at this ⊢
  tauto

theorem Ring.previous_mem (h : L.Ring l) (mem : x ∈ l) : L.previous x ∈ l := by
  obtain ⟨s, t, rfl⟩ := List.append_of_mem mem
  have previous := (Ring.rotate h).previous_head
  have : L.previous x ∈ x :: (t ++ s) := by
    rw [previous]
    exact List.getLast_mem _
  simp only [List.mem_append, List.mem_cons] at this ⊢
  tauto

/-- A ring stays a ring where its links are not written. -/
theorem Ring.congr (h : L.Ring l) (next : ∀ x ∈ l, L'.next x = L.next x)
    (previous : ∀ x ∈ l, L'.previous x = L.previous x) : L'.Ring l := by
  cases l with
  | nil => trivial
  | cons a l =>
      obtain ⟨nodup, chain⟩ := h
      refine ⟨nodup, chain.imp_of_mem_imp fun x y hx hy joined => ?_⟩
      have mem : ∀ {z}, z ∈ a :: l ++ [a] → z ∈ a :: l := by
        intro z hz
        simp only [List.mem_append, List.mem_cons, List.not_mem_nil, or_false] at hz ⊢
        tauto
      exact ⟨(next x (mem hx)).trans joined.1, (previous y (mem hy)).trans joined.2⟩

/-! ### Loops -/

theorem walk_chain [DecidableEq α] {head : α} {n : Nat}
    (chain : (x :: m ++ [head]).IsChain L.Joined) (out : head ∉ m) (fuel : m.length < n) :
    L.walk head n x = x :: m := by
  induction m generalizing x n with
  | nil =>
      obtain ⟨k, rfl⟩ := Nat.exists_eq_add_of_lt fuel
      have joined : L.next x = head := (List.isChain_pair.mp chain).1
      simp [walk, joined]
  | cons y m ih =>
      cases n with
      | zero => simp at fuel
      | succ n =>
          rw [List.cons_append, List.cons_append, List.isChain_cons_cons] at chain
          obtain ⟨⟨next, -⟩, rest⟩ := chain
          rw [List.mem_cons, not_or] at out
          rw [walk, next, if_neg (Ne.symm out.1), ih rest out.2 (by simpa using fuel)]

/-- A loop stays among nodes that point to one another. -/
theorem mem_walk [DecidableEq α] {S : α → Prop} {head : α} {n : Nat}
    (closed : ∀ z, S z → S (L.next z)) (start : S x) (mem : y ∈ L.walk head n x) : S y := by
  induction n generalizing x with
  | zero => cases mem
  | succ n ih =>
      rw [Links.walk, List.mem_cons] at mem
      rcases mem with rfl | mem
      · exact start
      · split_ifs at mem
        · cases mem
        · exact ih (closed x start) mem

/-- A loop looks at one of the two pointers only. -/
theorem walk_congr [DecidableEq α] (same : L'.next = L.next) (head : α) (n : Nat) (x : α) :
    L'.walk head n x = L.walk head n x := by
  induction n generalizing x with
  | zero => rfl
  | succ n ih => rw [Links.walk, Links.walk, same, ih]

/-- The loop over a whole list, with fuel for its nodes. -/
theorem Ring.walk [DecidableEq α] (h : L.Ring (a :: l)) {n : Nat} (fuel : l.length < n) :
    L.walk a n a = a :: l :=
  walk_chain h.2 (List.nodup_cons.mp h.1).1 fuel

/-- The list read backwards from its head. -/
theorem Ring.reverse (h : L.Ring l) : L.swap.Ring l.reverse := by
  cases l with
  | nil => trivial
  | cons a l =>
      have chain : ((a :: l ++ [a]).reverse).IsChain L.swap.Joined := by
        rw [List.isChain_reverse]
        exact h.2.imp fun x y joined => ⟨joined.2, joined.1⟩
      have rotated : L.swap.Ring (a :: l.reverse) := by
        refine ⟨?_, by simpa using chain⟩
        rw [List.nodup_cons, List.mem_reverse, List.nodup_reverse]
        exact List.nodup_cons.mp h.1
      rw [List.reverse_cons]
      exact Ring.rotate (l := [a]) rotated

/-- The loop over a whole list from its last node backwards. -/
theorem Ring.walk_back [DecidableEq α] (h : L.Ring (a :: l)) {n : Nat} (fuel : l.length < n) :
    L.swap.walk (L.previous a) n (L.previous a) = (a :: l).reverse := by
  have reversed := h.reverse
  obtain ⟨z, m, split⟩ := List.exists_cons_of_ne_nil (l := (a :: l).reverse) (by simp)
  have last : L.previous a = z := by
    rw [h.previous_head, ← List.head_reverse (by simp)]
    simp only [split, List.head_cons]
  rw [split] at reversed ⊢
  rw [last]
  refine reversed.walk ?_
  have count := congrArg List.length split
  simp only [List.length_reverse, List.length_cons] at count
  omega

/-- The node after `x` points back to it. -/
theorem Ring.previous_next (h : L.Ring l) (mem : x ∈ l) : L.previous (L.next x) = x := by
  obtain ⟨s, t, rfl⟩ := List.append_of_mem mem
  have turned : L.Ring (x :: (t ++ s)) := Ring.rotate h
  have next := turned.next_head
  cases rest : t ++ s with
  | nil =>
      rw [rest] at next turned
      rw [next]
      exact turned.last.2
  | cons y m =>
      rw [rest] at next turned
      have again : L.Ring (y :: m ++ [x]) := Ring.rotate (l := [x]) turned
      rw [next]
      exact again.previous_head.trans (by simp)

/-! ### Edits -/

variable [DecidableEq α] {b : α}

theorem ring_single (L : Links α) (x : α) : (L.single x).Ring [x] := by
  refine ring_cons_iff.mpr ⟨List.nodup_singleton x, List.isChain_singleton x, ?_, ?_⟩
  · simp [single]
  · simp [single]

theorem place_of_ne (L : Links α) {x d : α} (ne : x ≠ d) : L.place x d = L.insertBefore x d := by
  simp [place, Links.insertBefore, ne]

/-- A node put before itself is alone. -/
theorem place_self (L : Links α) (x : α) : L.place x x = L.single x := by
  simp [place, single]

/-- A node put before the head is the last one. -/
theorem Ring.insertBefore (h : L.Ring (a :: l)) (out : x ∉ a :: l) :
    (L.insertBefore x a).Ring (a :: l ++ [x]) := by
  obtain ⟨nodup, chain, last⟩ := ring_cons_iff.mp h
  have ne : x ≠ a := fun eq => out (eq ▸ List.mem_cons_self)
  have back : L.previous a ∈ a :: l := h.previous_mem List.mem_cons_self
  have back_ne : L.previous a ≠ x := fun eq => out (eq ▸ back)
  have nodup' : (a :: l ++ [x]).Nodup :=
    List.Nodup.append nodup (List.nodup_singleton x) (List.disjoint_singleton.mpr out)
  -- inside the old list no link is written
  have inside : (a :: l).IsChain (L.insertBefore x a).Joined := by
    refine chain.imp_of_mem_tail_imp fun u v hu hv joined => ?_
    have v_ne : v ≠ a := by
      rintro rfl
      exact (List.nodup_cons.mp nodup).1 hv
    have u_ne : u ≠ L.previous a := by
      rintro rfl
      exact v_ne (joined.1.symm.trans (h.previous_head ▸ last.1))
    have ux : u ≠ x := fun eq => out (eq ▸ hu)
    have vx : v ≠ x := fun eq => out (eq ▸ List.mem_cons_of_mem a hv)
    exact ⟨by simp [Links.insertBefore, u_ne, ux, joined.1],
      by simp [Links.insertBefore, v_ne, vx, joined.2]⟩
  refine ⟨nodup', ?_⟩
  change (a :: l ++ [x] ++ [a]).IsChain _
  rw [List.append_assoc, List.isChain_append]
  refine ⟨inside, ?_, ?_⟩
  · refine List.isChain_pair.mpr ⟨?_, ?_⟩
    · simp [Links.insertBefore, back_ne.symm]
    · simp [Links.insertBefore]
  · intro u hu v hv
    rw [List.getLast?_eq_some_getLast (List.cons_ne_nil a l), Option.mem_some_iff] at hu
    simp only [List.singleton_append, List.head?_cons, Option.mem_some_iff] at hv
    subst hu hv
    rw [← h.previous_head]
    exact ⟨by simp [Links.insertBefore], by simp [Links.insertBefore, ne]⟩

/-- The head taken out leaves the rest. -/
theorem Ring.unlink (h : L.Ring (x :: l)) : (L.unlink x).Ring l := by
  cases l with
  | nil => trivial
  | cons y l =>
      obtain ⟨nodup, chain, last⟩ := ring_cons_iff.mp h
      obtain ⟨first, chain⟩ := List.isChain_cons_cons.mp chain
      rw [List.getLast_cons_cons] at last
      have back : L.previous x = (y :: l).getLast (List.cons_ne_nil y l) := last.2
      obtain ⟨out, nodup⟩ := List.nodup_cons.mp nodup
      refine ring_cons_iff.mpr ⟨nodup, chain.imp_of_mem_tail_imp fun u v hu hv joined => ?_, ?_⟩
      · have v_ne : v ≠ L.next x := by
          rw [first.1]
          rintro rfl
          exact (List.nodup_cons.mp nodup).1 hv
        have u_ne : u ≠ L.previous x := by
          rintro rfl
          rw [back] at joined
          exact out (last.1.symm.trans joined.1 ▸ List.mem_cons_of_mem y hv)
        exact ⟨by simp [Links.unlink, u_ne, joined.1], by simp [Links.unlink, v_ne, joined.2]⟩
      · rw [← back]
        exact ⟨by simp [Links.unlink, first.1], by simp [Links.unlink, first.1]⟩

/-- Two rings become one. -/
theorem Ring.splice (h : L.Ring (a :: l)) (h' : L.Ring (b :: m))
    (apart : List.Disjoint (a :: l) (b :: m)) : (L.splice a b).Ring (a :: l ++ b :: m) := by
  obtain ⟨nodup, chain, last⟩ := ring_cons_iff.mp h
  obtain ⟨nodup', chain', last'⟩ := ring_cons_iff.mp h'
  have back : L.previous a ∈ a :: l := h.previous_mem List.mem_cons_self
  have back' : L.previous b ∈ b :: m := h'.previous_mem List.mem_cons_self
  have ne : L.previous a ≠ L.previous b := fun eq => apart back (eq ▸ back')
  have head_ne : a ≠ b := fun eq => apart List.mem_cons_self (eq ▸ List.mem_cons_self)
  have inside : (a :: l).IsChain (L.splice a b).Joined := by
    refine chain.imp_of_mem_tail_imp fun u v hu hv joined => ?_
    have v_ne : v ≠ a := by
      rintro rfl
      exact (List.nodup_cons.mp nodup).1 hv
    have vb : v ≠ b := fun eq => apart (List.mem_cons_of_mem a hv) (eq ▸ List.mem_cons_self)
    have u_ne : u ≠ L.previous a := by
      rintro rfl
      exact v_ne (joined.1.symm.trans (h.previous_head ▸ last.1))
    have ub : u ≠ L.previous b := fun eq => apart hu (eq ▸ back')
    exact ⟨by simp [Links.splice, u_ne, ub, joined.1], by simp [Links.splice, v_ne, vb, joined.2]⟩
  have inside' : (b :: m).IsChain (L.splice a b).Joined := by
    refine chain'.imp_of_mem_tail_imp fun u v hu hv joined => ?_
    have v_ne : v ≠ b := by
      rintro rfl
      exact (List.nodup_cons.mp nodup').1 hv
    have va : v ≠ a := fun eq => apart List.mem_cons_self (eq ▸ List.mem_cons_of_mem b hv)
    have u_ne : u ≠ L.previous b := by
      rintro rfl
      exact v_ne (joined.1.symm.trans (h'.previous_head ▸ last'.1))
    have ua : u ≠ L.previous a := fun eq => apart back (eq ▸ hu)
    exact ⟨by simp [Links.splice, u_ne, ua, joined.1], by simp [Links.splice, v_ne, va, joined.2]⟩
  refine ⟨List.Nodup.append nodup nodup' apart, ?_⟩
  change (a :: l ++ b :: m ++ [a]).IsChain _
  rw [List.append_assoc, List.isChain_append]
  refine ⟨inside, ?_, ?_⟩
  · rw [List.isChain_append]
    refine ⟨inside', List.isChain_singleton a, ?_⟩
    intro u hu v hv
    rw [List.getLast?_eq_some_getLast (List.cons_ne_nil b m), Option.mem_some_iff] at hu
    simp only [List.head?_cons, Option.mem_some_iff] at hv
    subst hu hv
    rw [← h'.previous_head]
    exact ⟨by simp [Links.splice], by simp [Links.splice]⟩
  · intro u hu v hv
    rw [List.getLast?_eq_some_getLast (List.cons_ne_nil a l), Option.mem_some_iff] at hu
    simp only [List.cons_append, List.head?_cons, Option.mem_some_iff] at hv
    subst hu hv
    rw [← h.previous_head]
    exact ⟨by simp [Links.splice, ne], by simp [Links.splice, head_ne.symm]⟩

/-- Any node taken out. -/
theorem Ring.erase (h : L.Ring l) (mem : x ∈ l) : (L.unlink x).Ring (l.erase x) := by
  obtain ⟨s, t, rfl⟩ := List.append_of_mem mem
  have out : x ∉ s := by
    intro hs
    exact (List.nodup_append.mp h.nodup).2.2 x hs x List.mem_cons_self rfl
  rw [List.erase_append_right _ out, List.erase_cons_head]
  have rest : (L.unlink x).Ring (t ++ s) := Ring.unlink (l := t ++ s) (Ring.rotate h)
  exact Ring.rotate rest

omit [DecidableEq α] in
/-- A node is its own successor only in a list of its own. -/
theorem Ring.next_eq_self (h : L.Ring l) (mem : x ∈ l) : L.next x = x ↔ l = [x] := by
  constructor
  · intro self
    obtain ⟨s, t, rfl⟩ := List.append_of_mem mem
    have h' : L.Ring (x :: (t ++ s)) := Ring.rotate h
    cases rest : t ++ s with
    | nil =>
        obtain ⟨rfl, rfl⟩ := List.append_eq_nil_iff.mp rest
        rfl
    | cons y m =>
        rw [rest] at h'
        have next : L.next x = y := h'.next_head
        have nodup := h'.nodup
        rw [← next, self] at nodup
        exact absurd List.mem_cons_self (List.nodup_cons.mp nodup).1
  · rintro rfl
    exact h.next_head

/-- The head of what is left when a node is taken out. -/
theorem Ring.head_erase (h : L.Ring l) (mem : x ∈ l) : (l.erase x).head? =
    if l.head? = some x then (if L.next x = x then none else some (L.next x)) else l.head? := by
  cases l with
  | nil => cases mem
  | cons a m =>
      by_cases same : a = x
      · subst same
        rw [List.erase_cons_head, List.head?_cons, if_pos rfl]
        cases m with
        | nil =>
            have self : L.next a = a := h.next_head
            rw [if_pos self]
            rfl
        | cons b m =>
            have next : L.next a = b := h.next_head
            have ne : b ≠ a := by
              rintro rfl
              exact (List.nodup_cons.mp h.nodup).1 List.mem_cons_self
            rw [next, if_neg ne, List.head?_cons]
      · rw [List.erase_cons_tail (by simpa using same), List.head?_cons, List.head?_cons,
          if_neg (by simpa using same)]

/-! ### What an edit leaves alone -/

/-- Where a node points to after it, or another, was taken out. -/
theorem unlink_next (L : Links α) (x v : α) :
    (L.unlink x).next v = L.next v ∨ (L.unlink x).next v = L.next x := by
  by_cases back : v = L.previous x <;> simp [Links.unlink, back]

theorem place_next (L : Links α) (x d v : α) :
    (L.place x d).next v = L.next v ∨ (L.place x d).next v = d ∨ (L.place x d).next v = x := by
  simp only [Links.place, Function.update_apply]
  split_ifs <;> simp

theorem insertBefore_next (L : Links α) (x d v : α) :
    (v ≠ x ∧ (L.insertBefore x d).next v = L.next v) ∨ (L.insertBefore x d).next v = d ∨
      (L.insertBefore x d).next v = x := by
  simp only [Links.insertBefore, Function.update_apply]
  split_ifs <;> simp [*]

/-- A ring apart from the node alone. -/
theorem Ring.of_single (h : L.Ring l) (out : x ∉ l) : (L.single x).Ring l := by
  refine h.congr (fun y hy => ?_) fun y hy => ?_ <;>
    · have ne : y ≠ x := fun eq => out (eq ▸ hy)
      simp [single, ne]

/-- A ring apart from the ring the node was put in. -/
theorem Ring.of_insertBefore (h : L.Ring l) (h' : L.Ring (a :: m)) (out : x ∉ l)
    (apart : List.Disjoint l (a :: m)) : (L.insertBefore x a).Ring l := by
  have back := h'.previous_mem List.mem_cons_self
  refine h.congr (fun y hy => ?_) fun y hy => ?_
  · have ne : y ≠ x := fun eq => out (eq ▸ hy)
    have ne' : y ≠ L.previous a := fun eq => apart hy (eq ▸ back)
    simp [Links.insertBefore, ne, ne']
  · have ne : y ≠ x := fun eq => out (eq ▸ hy)
    have ne' : y ≠ a := fun eq => apart hy (eq ▸ List.mem_cons_self)
    simp [Links.insertBefore, ne, ne']

/-- A ring apart from the ring the node was taken out of. -/
theorem Ring.of_unlink (h : L.Ring l) (h' : L.Ring m) (mem : x ∈ m)
    (apart : List.Disjoint l m) : (L.unlink x).Ring l := by
  have next := h'.next_mem mem
  have back := h'.previous_mem mem
  refine h.congr (fun y hy => ?_) fun y hy => ?_
  · have ne : y ≠ L.previous x := fun eq => apart hy (eq ▸ back)
    simp [Links.unlink, ne]
  · have ne : y ≠ L.next x := fun eq => apart hy (eq ▸ next)
    simp [Links.unlink, ne]

/-- A ring apart from the two rings that became one. -/
theorem Ring.of_splice {k : List α} (h : L.Ring k) (ha : L.Ring (a :: l)) (hb : L.Ring (b :: m))
    (apart : List.Disjoint k (a :: l)) (apart' : List.Disjoint k (b :: m)) :
    (L.splice a b).Ring k := by
  have back := ha.previous_mem List.mem_cons_self
  have back' := hb.previous_mem List.mem_cons_self
  refine h.congr (fun y hy => ?_) fun y hy => ?_
  · have ne : y ≠ L.previous a := fun eq => apart hy (eq ▸ back)
    have ne' : y ≠ L.previous b := fun eq => apart' hy (eq ▸ back')
    simp [Links.splice, ne, ne']
  · have ne : y ≠ a := fun eq => apart hy (eq ▸ List.mem_cons_self)
    have ne' : y ≠ b := fun eq => apart' hy (eq ▸ List.mem_cons_self)
    simp [Links.splice, ne, ne']

/-! ### A list held by a pointer to its head -/

theorem Ring.pushBack (h : L.Ring l) (out : x ∉ l) : (L.pushBack l.head? x).Ring (l ++ [x]) := by
  cases l with
  | nil => exact ring_single L x
  | cons a l => exact h.insertBefore out

/-- Put before any node of the list, or into an empty one. -/
theorem Ring.pushBefore (h : L.Ring (l ++ m)) (out : x ∉ l ++ m) (place : m = [] → l = []) :
    (L.pushBack m.head? x).Ring (l ++ x :: m) := by
  cases m with
  | nil =>
      rw [place rfl]
      exact ring_single L x
  | cons a m =>
      have h' : L.Ring (a :: (m ++ l)) := Ring.rotate h
      have out' : x ∉ a :: (m ++ l) := fun mem => out (by simp at mem ⊢; tauto)
      have inserted : (L.insertBefore x a).Ring ((a :: m) ++ (l ++ [x])) := by
        simpa using h'.insertBefore out'
      rw [List.head?_cons, Links.pushBack]
      simpa using Ring.rotate inserted

theorem Ring.of_pushBack (h : L.Ring l) (h' : L.Ring m) (out : x ∉ l)
    (apart : List.Disjoint l m) : (L.pushBack m.head? x).Ring l := by
  cases m with
  | nil => exact h.of_single out
  | cons a m => exact h.of_insertBefore h' out apart

end Links

end OsKernel
