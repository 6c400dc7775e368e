/-
What else edits the lists of threads: `round_robin` (`kern/scheduler.c`), the splices by
which `fork_ctrl_blk` and `thread_fork_ctrl_blk` put a new thread into the `READY` list
(`kern/ctrl_blk.c`), and the part of `alter_state` that takes a thread out of its list.

As for `alter_state`, `Shows` goes through: each does to the links what its counterpart
does to the lists.
-/

import OsKernel.Sched.Rings

namespace OsKernel.Sched

namespace Threads

/-- A thread leaves its list for the list of terminated threads, which is kept elsewhere. -/
def ended (k : Threads) (t : Thread) : Threads where
  tcb := Function.update k.tcb t { k.tcb t with state := .terminated }
  lists := k.unlink t

/-- The splice of `thread_fork_ctrl_blk`. -/
def enqueue (k : Threads) (x : Thread) : Threads :=
  let ready := k.lists (.state .ready)
  let d := readyDestination (fun u => (k.tcb u).pcb) (k.tcb x).pcb ready
  { k with lists := Function.update k.lists (.state .ready) (place ready x d false) }

/-- The splice of `fork_ctrl_blk`. -/
def append (k : Threads) (x : Thread) : Threads :=
  { k with lists := Function.update k.lists (.state .ready) (k.lists (.state .ready) ++ [x]) }

end Threads

namespace Rings

/-- `alter_state` to `TERMINATED_STATE`, up to the place in the new list. -/
def ended (r : Rings) (t : Thread) : Rings :=
  let original := (r.tcb t).listIdx
  { tcb := Function.update r.tcb t { r.tcb t with state := .terminated }
    threadLists := Function.update r.threadLists original (r.headWithout original t)
    links := takeOut r.links t }

/-- The four assignments that put node `x` after node `u`. -/
def insertAfter (L : Links Thread) (x u : Thread) : Links Thread :=
  let L : Links Thread := { L with next := Function.update L.next x (L.next u) }
  let L : Links Thread := { L with previous := Function.update L.previous x u }
  let L : Links Thread := { L with previous := Function.update L.previous (L.next x) x }
  { L with next := Function.update L.next (L.previous x) x }

/-- A new thread goes behind the last thread of its process, or to the end. -/
def enqueue (r : Rings) (fuel : Nat) (x : Thread) : Rings :=
  match r.threadLists (.state .ready) with
  | none => { r with
      threadLists := Function.update r.threadLists (.state .ready) (some x)
      links := r.links.single x }
  | some h =>
      let last := r.links.previous h
      match (r.links.swap.walk last fuel last).find? fun u => (r.tcb u).pcb = (r.tcb x).pcb with
      | some u => { r with links := insertAfter r.links x u }
      | none => { r with links := r.links.place x h }

/-- A new thread goes to the end. -/
def append (r : Rings) (x : Thread) : Rings :=
  match r.threadLists (.state .ready) with
  | none => { r with
      threadLists := Function.update r.threadLists (.state .ready) (some x)
      links := r.links.single x }
  | some h => { r with links := r.links.place x h }

/-- `round_robin` -/
def roundRobin (r : Rings) (fuel : Nat) : Rings × Option Thread :=
  match r.threadLists (.state .ready) with
  | none => (r, none)
  | some h =>
      match (r.links.walk h fuel h).tail.find? fun u => (r.tcb u).pcb ≠ (r.tcb h).pcb with
      | some d => ({ r with
          threadLists := Function.update r.threadLists (.state .ready) (some d) }, some h)
      | none => (r, some h)

variable {r : Rings} {k : Threads} {t x u : Thread} {fuel : Nat}

theorem Shows.ended (shows : r.Shows k) (wf : k.WellFormed)
    (mem : t ∈ k.lists (k.tcb t).listIdx) : (r.ended t).Shows (k.ended t) where
  tcb := by simp only [Rings.ended, Threads.ended, shows.tcb]
  ring := shows.takeOut wf mem
  head i := by
    simp only [Rings.ended, shows.tcb]
    exact shows.headWithout mem i

/-! ### New threads -/

theorem insertAfter_eq {L : Links Thread} (back : L.previous (L.next u) = u) :
    insertAfter L x u = L.place x (L.next u) := by
  simp only [insertAfter, Links.place, back]

/-- The lists with a new thread in one of them. -/
theorem Shows.put {i : ListIdx} {l : List Thread} {links : Links Thread} {head : Option Thread}
    (shows : r.Shows k) (ring : links.Ring l) (first : head = l.head?)
    (others : ∀ j, j ≠ i → links.Ring (k.lists j)) :
    Rings.Shows { r with threadLists := Function.update r.threadLists i head, links := links }
      { k with lists := Function.update k.lists i l } where
  tcb := shows.tcb
  ring j := by
    by_cases target : j = i
    · subst target
      simpa using ring
    · simpa [target] using others j target
  head j := by
    by_cases target : j = i
    · subst target
      simpa using first
    · simpa [target] using shows.head j

/-- A new thread alone in a list that was empty. -/
theorem Shows.put_single {i : ListIdx} (shows : r.Shows k) (new : ∀ j, x ∉ k.lists j) :
    Rings.Shows { r with
        threadLists := Function.update r.threadLists i (some x), links := r.links.single x }
      { k with lists := Function.update k.lists i [x] } :=
  shows.put (Links.ring_single _ x) rfl fun j _ => (shows.ring j).of_single (new j)

/-- A new thread before a node of a list whose head stays. -/
theorem Shows.put_before {i : ListIdx} {d : Thread} (shows : r.Shows k) (wf : k.WellFormed)
    (new : ∀ j, x ∉ k.lists j) (mem : d ∈ k.lists i) :
    Rings.Shows { r with links := r.links.place x d }
      { k with lists := Function.update k.lists i (place (k.lists i) x (some d) false) } := by
  obtain ⟨ring, head⟩ : (r.links.place x d).Ring (place (k.lists i) x (some d) false) ∧
      (place (k.lists i) x (some d) false).head? = (k.lists i).head? :=
    ring_place (shows.ring i) (new i) mem (by simp)
  have same : r.threadLists = Function.update r.threadLists i (k.lists i).head? := by
    rw [← shows.head i, Function.update_eq_self]
  have other : x ≠ d := fun eq => new i (eq ▸ mem)
  have keeps := shows.put (i := i) ring head.symm
    fun j apart => by
      obtain ⟨pre, post, split⟩ := List.append_of_mem mem
      have target := shows.ring i
      rw [split] at target
      rw [Links.place_of_ne _ other]
      refine (shows.ring j).of_insertBefore (m := post ++ pre) (Links.Ring.rotate target) (new j) ?_
      intro u hj hu
      refine disjoint_lists wf apart hj ?_
      rw [split]
      simp only [List.mem_append, List.mem_cons] at hu ⊢
      tauto
  rwa [← same] at keeps

theorem enqueue_tcb : (r.enqueue fuel x).tcb = r.tcb := by
  rw [Rings.enqueue]
  split
  · rfl
  · dsimp only
    split <;> rfl

theorem append_tcb : (r.append x).tcb = r.tcb := by
  rw [Rings.append]
  split <;> rfl

theorem Shows.enqueue (shows : r.Shows k) (wf : k.WellFormed)
    (enough : ∀ i, (k.lists i).length ≤ fuel) (new : ∀ i, x ∉ k.lists i) :
    (r.enqueue fuel x).Shows (k.enqueue x) := by
  have goes := shows.readyDestination enough x
  have slot := stands_ready (fun u => (k.tcb u).pcb) (k.tcb x).pcb (k.lists (.state .ready))
  have head := shows.head (.state .ready)
  have ring := shows.ring (.state .ready)
  have long := enough (.state .ready)
  rw [Rings.readyDestination, head] at goes
  rw [Rings.enqueue, Threads.enqueue, head]
  cases list : k.lists (.state .ready) with
  | nil => exact shows.put_single new
  | cons h rest =>
      rw [list] at goes slot ring long
      rw [List.length_cons] at long
      dsimp only [List.head?_cons] at goes ⊢
      rw [ring.walk_back (by omega)] at goes ⊢
      rw [← goes] at slot ⊢
      cases found : (h :: rest).reverse.find? fun u => (r.tcb u).pcb = (r.tcb x).pcb with
      | none =>
          have put := shows.put_before wf new (d := h) (by rw [list]; exact List.mem_cons_self)
          rwa [list] at put
      | some u =>
          have mem : u ∈ h :: rest := List.mem_reverse.mp (List.mem_of_find?_eq_some found)
          have put := shows.put_before wf new (d := r.links.next u) (by
            rw [list]
            exact ring.next_mem mem)
          rw [list] at put
          dsimp only
          rwa [insertAfter_eq (ring.previous_next mem)]

theorem Shows.append (shows : r.Shows k) (wf : k.WellFormed) (new : ∀ i, x ∉ k.lists i) :
    (r.append x).Shows (k.append x) := by
  have head := shows.head (.state .ready)
  rw [Rings.append]
  cases list : k.lists (.state .ready) with
  | nil =>
      rw [list] at head
      rw [show r.threadLists (.state .ready) = none from head, Threads.append, list]
      exact shows.put_single new
  | cons h rest =>
      rw [list] at head
      rw [show r.threadLists (.state .ready) = some h from head, Threads.append]
      have put := shows.put_before (d := h) wf new (by rw [list]; exact List.mem_cons_self)
      have last := place_head (l := k.lists (.state .ready)) (by simp [list]) (new _)
      rw [list, List.head?_cons, ← list] at last
      rwa [last] at put

/-! ### Round robin -/

theorem Shows.roundRobin (shows : r.Shows k) (enough : ∀ i, (k.lists i).length ≤ fuel) :
    (r.roundRobin fuel).1.Shows k.roundRobin.1 ∧ (r.roundRobin fuel).2 = k.roundRobin.2 := by
  have nodes := shows.nodes enough (.state .ready)
  have head := shows.head (.state .ready)
  have ring := shows.ring (.state .ready)
  rw [Rings.nodes] at nodes
  rw [Rings.roundRobin, Threads.roundRobin]
  cases list : k.lists (.state .ready) with
  | nil =>
      rw [list] at head
      rw [show r.threadLists (.state .ready) = none from head]
      refine ⟨?_, rfl⟩
      have same := Function.update_eq_self (ListIdx.state .ready) k.lists
      rw [list] at same
      dsimp only [Threads.rotate]
      rwa [same]
  | cons h rest =>
      rw [list] at head ring
      rw [show r.threadLists (.state .ready) = some h from head] at nodes ⊢
      rw [list] at nodes
      dsimp only at nodes ⊢
      rw [nodes, List.tail_cons, Threads.rotate, shows.tcb]
      simp only [ne_eq, decide_not, List.find?_not_eq_head?_dropWhile]
      have whole := List.takeWhile_append_dropWhile
        (p := fun u => decide ((k.tcb u).pcb = (k.tcb h).pcb)) (l := rest)
      cases behind : rest.dropWhile fun u => decide ((k.tcb u).pcb = (k.tcb h).pcb) with
      | nil =>
          have same := Function.update_eq_self (ListIdx.state .ready) k.lists
          rw [list] at same
          dsimp only [List.head?_nil]
          rw [same]
          exact ⟨shows, rfl⟩
      | cons d ds =>
          rw [behind] at whole
          rw [← whole] at ring
          refine ⟨?_, rfl⟩
          dsimp only [List.head?_cons]
          have turned := Links.Ring.rotate
            (l := h :: rest.takeWhile fun u => decide ((k.tcb u).pcb = (k.tcb h).pcb)) ring
          have put := shows.put (i := .state .ready) turned rfl fun j _ => shows.ring j
          rwa [shows.tcb] at put

end Rings

end OsKernel.Sched
