/-
`alter_state` (`kern/ctrl_blk.c`) with the pointers it writes.

The node of a thread is known by the thread. A loop over a list that may end early looks at
the nodes that `Links.walk` visits, up to the one it looks for. `Shows r k` says that the
links of `r` are the lists of `k`; `Shows.alterState` says that the assignments do to the
links what `Threads.alterState` does to the lists, whichever nodes coincide.
-/

import OsKernel.Lib.Ring
import OsKernel.Sched.Lists

namespace OsKernel.Sched

structure Rings where
  tcb : Thread → Tcb
  /-- `thread_lists` -/
  threadLists : ListIdx → Option Thread
  links : Links Thread

namespace Rings

/-- The nodes of a list, from its head on. -/
def nodes (r : Rings) (fuel : Nat) (i : ListIdx) : List Thread :=
  match r.threadLists i with
  | none => []
  | some h => r.links.walk h fuel h

def wakeupTime (r : Rings) (u : Thread) : BitVec 32 := (r.tcb u).detail.wakeupTime

/-- `destination_node_ptr` and `front_pushed` for the `SLEEP` list. -/
def sleepDestination (r : Rings) (fuel : Nat) (w : BitVec 32) : Option Thread × Bool :=
  match r.threadLists (.reason .sleep) with
  | none => (none, true)
  | some h =>
      if w ≤ r.wakeupTime h then (some h, true)
      else (some (((r.links.walk h fuel h).tail.find? fun u => ¬ r.wakeupTime u < w).getD h), false)

/-- `destination_node_ptr` for the `READY` list. -/
def readyDestination (r : Rings) (fuel : Nat) (t : Thread) : Option Thread :=
  match r.threadLists (.state .ready) with
  | none => none
  | some h =>
      let last := r.links.previous h
      match (r.links.swap.walk last fuel last).find? fun u => (r.tcb u).pcb = (r.tcb t).pcb with
      | some u => some (r.links.next u)
      | none => some h

/-- `target_list_idx`, `destination_node_ptr` and `front_pushed`. -/
def destination (r : Rings) (fuel : Nat) (t : Thread) (detail : Option BlockingDetail) :
    ThreadState → Option (ListIdx × Option Thread × Bool)
  | .waiting => detail.map fun detail =>
      (.reason detail.reason, match detail with
        | .sleep w => r.sleepDestination fuel w
        | .readline first => (r.threadLists (.reason .readline), first)
        | .deschedule => (r.threadLists (.reason .deschedule), false)
        | .vanishWait => (r.threadLists (.reason .vanishWait), false))
  | .ready => some (.state .ready, r.readyDestination fuel t, false)
  | .running => some (.state .running, r.threadLists (.state .running), true)
  | .terminated => some (.state .terminated, r.threadLists (.state .terminated), false)
  | .new => none

/-- The head of the list `i` once its node `x` is out. -/
def headWithout (r : Rings) (i : ListIdx) (x : Thread) : Option Thread :=
  if r.threadLists i = some x then
    if r.links.next x = x then none else some (r.links.next x)
  else r.threadLists i

/-- The two assignments that take a node out. -/
def takeOut (L : Links Thread) (x : Thread) : Links Thread :=
  let L : Links Thread := { L with
    previous := Function.update L.previous (L.next x) (L.previous x) }
  { L with next := Function.update L.next (L.previous x) (L.next x) }

/-- The assignments of `alter_state`, once it knows where the node goes. -/
def moved (r : Rings) (t : Thread) (state : ThreadState) (detail : Option BlockingDetail)
    (idx : ListIdx) (d : Option Thread) (frontPushed : Bool) : Rings :=
  let original := (r.tcb t).listIdx
  let lists := Function.update r.threadLists original (r.headWithout original t)
  let links := takeOut r.links t
  { tcb := Function.update r.tcb t { r.tcb t with
      state := state
      detail := if state = .waiting then detail.getD (r.tcb t).detail else (r.tcb t).detail }
    threadLists := match d with
      | none => Function.update lists idx (some t)
      | some _ => if frontPushed then Function.update lists idx (some t) else lists
    links := match d with
      | none => links.single t
      | some d => links.place t d }

/-- `alter_state`; none if it fails. -/
def alterState (r : Rings) (fuel : Nat) (t : Thread) (state : ThreadState)
    (detail : Option BlockingDetail) : Option Rings :=
  if (r.tcb t).state = .new ∨ (r.nodes fuel (r.tcb t).listIdx).find? (fun u => u = t) = none then none
  else (r.destination fuel t detail state).map fun (idx, d, frontPushed) =>
    r.moved t state detail idx d frontPushed

/-- The links are these lists. -/
structure Shows (r : Rings) (k : Threads) : Prop where
  tcb : r.tcb = k.tcb
  ring : ∀ i, r.links.Ring (k.lists i)
  head : ∀ i, r.threadLists i = (k.lists i).head?

variable {r r' : Rings} {k k' : Threads} {t : Thread} {state : ThreadState}
variable {detail : Option BlockingDetail} {idx : ListIdx} {d : Option Thread} {frontPushed : Bool}
variable {fuel : Nat}

theorem takeOut_eq (L : Links Thread) (x : Thread) : takeOut L x = L.unlink x := by
  have kept : Function.update L.previous (L.next x) (L.previous x) x = L.previous x := by
    by_cases self : x = L.next x
    · rw [← self, Function.update_self]
    · exact Function.update_of_ne self _ _
  simp only [takeOut, kept, Links.unlink]

/-! ### Where the node goes -/

theorem Shows.nodes (shows : r.Shows k) (enough : ∀ i, (k.lists i).length ≤ fuel) (i : ListIdx) :
    r.nodes fuel i = k.lists i := by
  have ring := shows.ring i
  have long := enough i
  rw [Rings.nodes, shows.head i]
  cases list : k.lists i with
  | nil => rfl
  | cons h rest =>
      rw [list] at ring long
      exact ring.walk (by rw [List.length_cons] at long; omega)

theorem Shows.wakeupTime (shows : r.Shows k) (u : Thread) :
    r.wakeupTime u = (k.tcb u).detail.wakeupTime := by rw [Rings.wakeupTime, shows.tcb]

theorem Shows.sleepDestination (shows : r.Shows k) (enough : ∀ i, (k.lists i).length ≤ fuel)
    (w : BitVec 32) : r.sleepDestination fuel w =
      Sched.sleepDestination (fun u => (k.tcb u).detail.wakeupTime) w (k.lists (.reason .sleep)) := by
  have nodes := shows.nodes enough (.reason .sleep)
  have head := shows.head (.reason .sleep)
  rw [Rings.nodes] at nodes
  rw [Rings.sleepDestination, head]
  cases list : k.lists (.reason .sleep) with
  | nil => rfl
  | cons h rest =>
      rw [head, list, List.head?_cons] at nodes
      dsimp only at nodes
      rw [List.head?_cons]
      dsimp only
      simp only [nodes, List.tail_cons, shows.wakeupTime, decide_not, List.find?_not_eq_head?_dropWhile]
      rfl

/-- A list has no thread of the process, or a last one. -/
theorem last_of_process (pcb : Thread → Nat) (p : Nat) (l : List Thread) :
    (∀ u ∈ l, pcb u ≠ p) ∨
      ∃ pre e post, l = pre ++ e :: post ∧ pcb e = p ∧ ∀ u ∈ post, pcb u ≠ p := by
  induction l using List.reverseRecOn with
  | nil => exact .inl nofun
  | append_singleton l x ih =>
      by_cases own : pcb x = p
      · exact .inr ⟨l, x, [], rfl, own, nofun⟩
      · obtain none | ⟨pre, e, post, rfl, found, behind⟩ := ih
        · left
          intro u mem
          rcases List.mem_append.mp mem with mem | mem
          · exact none u mem
          · rwa [List.mem_singleton.mp mem]
        · refine .inr ⟨pre, e, post ++ [x], by simp, found, fun u mem => ?_⟩
          rcases List.mem_append.mp mem with mem | mem
          · exact behind u mem
          · rwa [List.mem_singleton.mp mem]

theorem readyDestination_none {pcb : Thread → Nat} {p : Nat} {l : List Thread}
    (none : ∀ u ∈ l, pcb u ≠ p) : Sched.readyDestination pcb p l = l.head? := by
  rw [Sched.readyDestination, if_pos]
  rw [List.rdropWhile_eq_nil_iff]
  simpa using none

theorem readyDestination_last {pcb : Thread → Nat} {p : Nat} {pre post : List Thread} {e : Thread}
    (own : pcb e = p) (behind : ∀ u ∈ post, pcb u ≠ p) :
    Sched.readyDestination pcb p (pre ++ e :: post) = post.head?.or (pre ++ e :: post).head? := by
  have takes : (pre ++ e :: post).rtakeWhile (fun u => decide (pcb u ≠ p)) = post := by
    rw [List.rtakeWhile, List.reverse_append, List.reverse_cons, List.append_assoc,
      List.takeWhile_append_of_pos fun u mem => by simpa using behind u (List.mem_reverse.mp mem)]
    simp [own]
  rw [Sched.readyDestination, if_neg, takes]
  rw [List.rdropWhile_eq_nil_iff]
  intro all
  simpa [own] using all e (by simp)

theorem Shows.readyDestination (shows : r.Shows k) (enough : ∀ i, (k.lists i).length ≤ fuel)
    (t : Thread) : r.readyDestination fuel t =
      Sched.readyDestination (fun u => (k.tcb u).pcb) (k.tcb t).pcb (k.lists (.state .ready)) := by
  have ring := shows.ring (.state .ready)
  have long := enough (.state .ready)
  rw [Rings.readyDestination, shows.head, shows.tcb]
  cases list : k.lists (.state .ready) with
  | nil => rfl
  | cons h rest =>
      rw [list] at ring long
      have back : r.links.swap.walk (r.links.previous h) fuel (r.links.previous h) =
          (h :: rest).reverse := ring.walk_back (by rw [List.length_cons] at long; omega)
      rw [List.head?_cons]
      dsimp only
      rw [back]
      obtain none | ⟨pre, e, post, split, own, behind⟩ :=
        last_of_process (fun u => (k.tcb u).pcb) (k.tcb t).pcb (h :: rest)
      · rw [readyDestination_none none, List.find?_eq_none.mpr fun u mem => by
          simpa using none u (List.mem_reverse.mp mem)]
        rfl
      · rw [split] at ring ⊢
        have found : (pre ++ e :: post).reverse.find? (fun u =>
            decide ((k.tcb u).pcb = (k.tcb t).pcb)) = some e := by
          rw [List.reverse_append, List.reverse_cons, List.append_assoc, List.find?_append,
            List.find?_eq_none.mpr (by simpa using behind)]
          simp [own]
        have next := (Links.Ring.rotate ring).next_head
        rw [readyDestination_last own behind, found]
        dsimp only
        rw [next]
        cases post with
        | cons d post => rfl
        | nil => cases pre <;> simp

theorem Shows.destination (shows : r.Shows k) (enough : ∀ i, (k.lists i).length ≤ fuel) :
    r.destination fuel t detail state = k.destination t detail state := by
  cases state with
  | waiting =>
      cases detail with
      | none => rfl
      | some detail =>
          cases detail <;> simp only [Rings.destination, Threads.destination, Option.map_some,
            shows.sleepDestination enough, shows.head]
  | _ => simp only [Rings.destination, Threads.destination, shows.head,
      shows.readyDestination enough]

/-- The node that a thread goes before is in the target list; if the list gets a new head,
it is the old one. -/
structure Stands (l : List Thread) (d : Option Thread) (frontPushed : Bool) : Prop where
  empty : d = none → l = []
  mem : ∀ x, d = some x → x ∈ l
  front : frontPushed = true → d = l.head?

theorem stands_head (l : List Thread) (frontPushed : Bool) : Stands l l.head? frontPushed :=
  ⟨List.head?_eq_none_iff.mp, fun _ first => List.mem_of_head? first, fun _ => rfl⟩

theorem stands_sleep (wakeupTime : Thread → BitVec 32) (w : BitVec 32) (l : List Thread) :
    Stands l (Sched.sleepDestination wakeupTime w l).1 (Sched.sleepDestination wakeupTime w l).2 := by
  cases l with
  | nil => exact stands_head [] true
  | cons h rest =>
      rw [Sched.sleepDestination]
      split
      · exact stands_head (h :: rest) true
      · refine ⟨nofun, fun x eq => ?_, nofun⟩
        cases found : rest.dropWhile fun u => wakeupTime u < w with
        | nil =>
            simp only [found, List.head?_nil, Option.getD_none, Option.some.injEq] at eq
            simp [eq]
        | cons y ys =>
            simp only [found, List.head?_cons, Option.getD_some, Option.some.injEq] at eq
            subst eq
            exact List.mem_cons_of_mem h ((List.dropWhile_suffix _).subset (by rw [found]; simp))

theorem stands_ready (pcb : Thread → Nat) (p : Nat) (l : List Thread) :
    Stands l (Sched.readyDestination pcb p l) false := by
  obtain none | ⟨pre, e, post, rfl, own, behind⟩ := last_of_process pcb p l
  · rw [readyDestination_none none]
    exact stands_head l false
  · rw [readyDestination_last own behind]
    cases post with
    | nil => exact stands_head _ false
    | cons d post => exact ⟨nofun, fun x eq => by cases eq; simp, nofun⟩

theorem stands (goes : k.destination t detail state = some (idx, d, frontPushed)) :
    Stands (k.lists idx) d frontPushed := by
  cases state with
  | waiting =>
      cases detail with
      | none => cases goes
      | some detail =>
          rw [Threads.destination, Option.map_some, Option.some.injEq, Prod.mk.injEq] at goes
          obtain ⟨rfl, goes⟩ := goes
          cases detail with
          | sleep w =>
              have slot := stands_sleep (fun u => (k.tcb u).detail.wakeupTime) w
                (k.lists (.reason .sleep))
              dsimp only at goes
              rwa [goes] at slot
          | _ =>
              cases goes
              exact stands_head ..
  | new => cases goes
  | ready =>
      cases goes
      exact stands_ready ..
  | running =>
      cases goes
      exact stands_head ..
  | terminated =>
      cases goes
      exact stands_head ..

/-! ### The assignments -/

/-- A thread is in one list. -/
theorem disjoint_lists (wf : k.WellFormed) {i j : ListIdx} (other : i ≠ j) :
    List.Disjoint (k.lists i) (k.lists j) := by
  intro u hi hj
  exact other ((wf.listed i u hi).symm.trans (wf.listed j u hj))

theorem disjoint_unlink (wf : k.WellFormed) {i j : ListIdx} (other : i ≠ j) :
    List.Disjoint (k.unlink t i) (k.unlink t j) := fun _ hi hj =>
  disjoint_lists wf other (Threads.mem_unlink hi) (Threads.mem_unlink hj)

/-- The lists once the node is out. -/
theorem Shows.takeOut (shows : r.Shows k) (wf : k.WellFormed)
    (mem : t ∈ k.lists (k.tcb t).listIdx) (i : ListIdx) :
    (Rings.takeOut r.links t).Ring (k.unlink t i) := by
  rw [takeOut_eq]
  by_cases own : i = (k.tcb t).listIdx
  · rw [own, Threads.unlink, Function.update_self]
    exact (shows.ring _).erase mem
  · rw [Threads.unlink_other own]
    exact (shows.ring i).of_unlink (shows.ring _) mem (disjoint_lists wf own)

theorem Shows.headWithout (shows : r.Shows k) (mem : t ∈ k.lists (k.tcb t).listIdx) (i : ListIdx) :
    Function.update r.threadLists (k.tcb t).listIdx (r.headWithout (k.tcb t).listIdx t) i =
      (k.unlink t i).head? := by
  by_cases own : i = (k.tcb t).listIdx
  · rw [own, Function.update_self, Threads.unlink, Function.update_self, Rings.headWithout,
      (shows.ring _).head_erase mem, shows.head]
  · rw [Function.update_of_ne own, Threads.unlink_other own, shows.head]

/-- The node put into the target list. -/
theorem ring_place {L : Links Thread} {l : List Thread} (ring : L.Ring l) (new : t ∉ l)
    {x : Thread} (mem : x ∈ l) (front : frontPushed = true → l.head? = some x) :
    (L.place t x).Ring (place l t (some x) frontPushed) ∧
      (place l t (some x) frontPushed).head? = if frontPushed then some t else l.head? := by
  have other : t ≠ x := fun same => new (same ▸ mem)
  have nodup := ring.nodup
  rw [Links.place_of_ne L other]
  obtain ⟨pre, post, rfl⟩ := List.append_of_mem mem
  have inserted : (L.insertBefore t x).Ring (x :: (post ++ pre) ++ [t]) :=
    Links.Ring.insertBefore (l := post ++ pre) (Links.Ring.rotate ring) (by
      intro inList
      apply new
      simp only [List.mem_cons, List.mem_append] at inList ⊢
      tauto)
  cases pre with
  | nil =>
      cases frontPushed with
      | true =>
          have front' : (L.insertBefore t x).Ring ([t] ++ (x :: post)) := by
            refine Links.Ring.rotate ?_
            simpa using inserted
          simpa [place, other.symm] using front'
      | false => simpa [place, other.symm] using inserted
  | cons h pre =>
      have notFront : frontPushed = false := by
        cases frontPushed with
        | false => rfl
        | true =>
            obtain rfl : h = x := by simpa using front rfl
            exact absurd (List.nodup_cons.mp nodup).1 (by simp)
      subst notFront
      rw [place_before nodup (by simp) other.symm]
      refine ⟨?_, rfl⟩
      have turned : (L.insertBefore t x).Ring ((h :: pre ++ [t]) ++ x :: post) := by
        refine Links.Ring.rotate ?_
        simpa using inserted
      simpa using turned

/-- A node of the target list other than the one that was taken out. -/
theorem mem_unlink_of_ne {x : Thread} (mem : x ∈ k.lists idx) (other : x ≠ t) : x ∈ k.unlink t idx := by
  by_cases own : idx = (k.tcb t).listIdx
  · rw [own] at mem ⊢
    rw [Threads.unlink, Function.update_self]
    exact (List.mem_erase_of_ne other).mpr mem
  · rwa [Threads.unlink_other own]

theorem head_unlink_of_ne {x : Thread} (head : (k.lists idx).head? = some x) (other : x ≠ t) :
    (k.unlink t idx).head? = some x := by
  by_cases own : idx = (k.tcb t).listIdx
  · rw [own] at head ⊢
    rw [Threads.unlink, Function.update_self]
    obtain ⟨rest, list⟩ := List.head?_eq_some_iff.mp head
    rw [list, List.erase_cons_tail (by simpa using other)]
    rfl
  · rwa [Threads.unlink_other own]

/-- What the assignments make of the links, list by list. -/
theorem Shows.of_lists (shows : r.Shows k) (mem : t ∈ k.lists (k.tcb t).listIdx)
    (ring : (r.moved t state detail idx d frontPushed).links.Ring
      (place (k.unlink t idx) t d frontPushed))
    (others : ∀ i, i ≠ idx → (r.moved t state detail idx d frontPushed).links.Ring (k.unlink t i))
    (head : (place (k.unlink t idx) t d frontPushed).head? =
      if d = none ∨ frontPushed = true then some t else (k.unlink t idx).head?) :
    (r.moved t state detail idx d frontPushed).Shows
      (k.moved t state detail idx d frontPushed) := by
  have heads := shows.headWithout mem
  refine ⟨by simp only [Rings.moved, Threads.moved, shows.tcb], fun i => ?_, fun i => ?_⟩
  · by_cases target : i = idx
    · rw [target, Threads.moved_lists_self]
      exact ring
    · rw [Threads.moved_lists_other target]
      exact others i target
  · have lists : (r.moved t state detail idx d frontPushed).threadLists i =
        if i = idx ∧ (d = none ∨ frontPushed = true) then some t else (k.unlink t i).head? := by
      rw [← heads i]
      cases d <;> cases frontPushed <;> simp [Rings.moved, shows.tcb, Function.update_apply]
    rw [lists]
    by_cases target : i = idx
    · rw [target, Threads.moved_lists_self, head]
      simp
    · rw [Threads.moved_lists_other target, if_neg (by tauto)]

theorem Shows.moved (shows : r.Shows k) (wf : k.WellFormed) (mem : t ∈ k.lists (k.tcb t).listIdx)
    (goes : k.destination t detail state = some (idx, d, frontPushed)) :
    (r.moved t state detail idx d frontPushed).Shows
      (k.moved t state detail idx d frontPushed) := by
  have slot := stands goes
  have new : ∀ i, t ∉ k.unlink t i := wf.not_mem_unlink
  have left := shows.takeOut wf mem
  have alone : ∀ i, ((Rings.takeOut r.links t).single t).Ring (k.unlink t i) :=
    fun i => (left i).of_single (new i)
  cases d with
  | none =>
      exact shows.of_lists mem (Links.ring_single _ t) (fun i _ => alone i) rfl
  | some x =>
      by_cases own : x = t
      · -- the node goes before itself: it is in a list of its own
        subst own
        have links : (r.moved x state detail idx (some x) frontPushed).links =
            (Rings.takeOut r.links x).single x := Links.place_self _ x
        refine shows.of_lists mem ?_ (fun i _ => ?_) ?_
        · rw [links, place, if_pos rfl]
          split
          · exact Links.ring_single _ x
          · exact alone idx
        · rw [links]
          exact alone i
        · cases frontPushed <;> simp [place]
      · have inList := mem_unlink_of_ne (slot.mem x rfl) own
        have front : frontPushed = true → (k.unlink t idx).head? = some x :=
          fun pushed => head_unlink_of_ne (slot.front pushed).symm own
        obtain ⟨ring, head⟩ := ring_place (left idx) (new idx) inList front
        refine shows.of_lists mem ring (fun i other => ?_) (by simpa using head)
        have links : (r.moved t state detail idx (some x) frontPushed).links =
            (Rings.takeOut r.links t).insertBefore t x := Links.place_of_ne _ (Ne.symm own)
        rw [links]
        obtain ⟨pre, post, split⟩ := List.append_of_mem inList
        have target := left idx
        rw [split] at target
        refine (left i).of_insertBefore (m := post ++ pre) (Links.Ring.rotate target) (new i) ?_
        intro u hi hu
        refine disjoint_unlink wf other hi ?_
        rw [split]
        simp only [List.mem_append, List.mem_cons] at hu ⊢
        tauto

/-- `alter_state` does to the links what `Threads.alterState` does to the lists. -/
theorem Shows.alterState (shows : r.Shows k) (wf : k.WellFormed)
    (enough : ∀ i, (k.lists i).length ≤ fuel) :
    Option.Rel Shows (r.alterState fuel t state detail) (k.alterState t state detail) := by
  have search : (k.lists (k.tcb t).listIdx).find? (fun u => decide (u = t)) = none ↔
      t ∉ k.lists (k.tcb t).listIdx := by
    simp only [List.find?_eq_none, decide_eq_true_eq]
    exact ⟨fun none mem => none t mem rfl, fun absent u mem same => absent (same ▸ mem)⟩
  rw [Rings.alterState, Threads.alterState, shows.nodes enough, shows.tcb, shows.destination enough]
  by_cases fails : (k.tcb t).state = .new ∨ t ∉ k.lists (k.tcb t).listIdx
  · rw [if_pos fails, if_pos (by rwa [search])]
    exact .none
  · rw [if_neg fails, if_neg (by rwa [search])]
    rw [not_or, not_not] at fails
    cases goes : k.destination t detail state with
    | none => exact .none
    | some out => exact .some (shows.moved wf fails.2 goes)

end Rings

end OsKernel.Sched
