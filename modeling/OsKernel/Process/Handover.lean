/-
The list of the children of `init`, assignment by assignment: `PUSH_BACK` and
`POP_BACK` by a `fork` of `init` (`kern/ctrl_blk.c`, `kern/inc/list.h`), which hold no
lock, and the hand-over of orphans by `handle_wait` of another process
(`kern/system_call.c`), under the lock of the PCB of `init`.

A node stands for the PCB it holds. `family e` is the list of the children of an
exited process `e`, which its parent takes out and frees after the hand-over. The
loop that corrects the parent pointers of the orphans writes no link and is left out.
`kids` and `orphans` are bookkeeping: the children that `init` should have, and the
children of the exited processes.
-/

import OsKernel.Lib.Ring
import OsKernel.Lib.Run

namespace OsKernel.Handover

open OsKernel.Run

/-- Where `fork_ctrl_blk` of `init` stands, with the node of the new process. -/
inductive ForkPc where
  | out
  /-- `(front) == NULL` -/
  | check (new : Nat)
  | alonePrevious (new : Nat)
  | aloneNext (new : Nat)
  | aloneFront (new : Nat)
  | setPrevious (new : Nat)
  | setNext (new : Nat)
  | linkPrevious (new : Nat)
  | linkNext (new : Nat)
  /-- The process is in the list, and the other allocations follow. -/
  | made (new : Nat)
  /-- `old_back = (front)->previous` -/
  | popTake (new : Nat)
  /-- `(front) == (front)->previous` -/
  | popTest (new old : Nat)
  | popClear (new old : Nat)
  | popNext (new old : Nat)
  | popPrevious (new old : Nat)
  | popFree (old : Nat)
deriving DecidableEq

/-- Where the hand-over of the orphans of process `e` stands. -/
inductive WaitPc where
  | out
  | lock (e : Nat)
  /-- `children` and `grandchildren` are read. -/
  | read (e : Nat)
  | branch (e : Nat) (children : Option Nat) (grandchildren : Nat)
  /-- `children->previous->next = grandchildren` -/
  | join (e children grandchildren tmp : Nat)
  /-- `grandchildren->previous = children->previous` -/
  | joinBack (e children grandchildren tmp : Nat)
  /-- `children->previous = tmp` -/
  | closeBack (e children tmp : Nat)
  /-- `tmp->next = children` -/
  | close (e children tmp : Nat)
  | unlock
deriving DecidableEq

/-- Between the first read of the list and its last assignment. -/
def ForkPc.inside : ForkPc → Bool
  | .out | .check _ | .made _ | .popTake _ | .popFree _ => false
  | _ => true

def WaitPc.inside : WaitPc → Bool
  | .out | .lock _ | .read _ | .unlock => false
  | _ => true

structure State where
  links : Links Nat
  /-- `child_pcb_list` of `init` -/
  head : Option Nat
  family : Nat → Option Nat
  /-- `child_pcb_list` of the caller, where the source assigns it. -/
  stray : Nat → Option Nat
  /-- Who holds the lock of `init`. -/
  lock : Option Nat
  /-- The nodes that are allocated. -/
  used : Nat → Bool
  fork : ForkPc
  wait : Nat → WaitPc
  kids : List Nat
  orphans : Nat → List Nat

namespace State

/-- The next step of the fork: `addr` is what `malloc` returns, and `fails` whether a
later allocation fails. -/
def forkStep (s : State) (addr : Nat) (fails : Bool) : State :=
  match s.fork with
  | .out =>
      if s.used addr then s
      else { s with used := Function.update s.used addr true, fork := .check addr }
  | .check new =>
      { s with fork := if s.head = none then .alonePrevious new else .setPrevious new }
  | .alonePrevious new =>
      { s with links := { s.links with previous := Function.update s.links.previous new new }
               fork := .aloneNext new }
  | .aloneNext new =>
      { s with links := { s.links with next := Function.update s.links.next new new }
               fork := .aloneFront new }
  | .aloneFront new =>
      { s with head := some new, kids := s.kids ++ [new], fork := .made new }
  | .setPrevious new =>
      match s.head with
      | none => s
      | some front =>
          { s with links := { s.links with
                     previous := Function.update s.links.previous new (s.links.previous front) }
                   fork := .setNext new }
  | .setNext new =>
      match s.head with
      | none => s
      | some front =>
          { s with links := { s.links with next := Function.update s.links.next new front }
                   fork := .linkPrevious new }
  | .linkPrevious new =>
      { s with links := { s.links with
                 next := Function.update s.links.next (s.links.previous new) new }
               fork := .linkNext new }
  | .linkNext new =>
      { s with links := { s.links with
                 previous := Function.update s.links.previous (s.links.next new) new }
               kids := s.kids ++ [new]
               fork := .made new }
  | .made new => { s with fork := if fails then .popTake new else .out }
  | .popTake new =>
      match s.head with
      | none => s
      | some front => { s with fork := .popTest new (s.links.previous front) }
  | .popTest new old =>
      match s.head with
      | none => s
      | some front =>
          { s with fork := if front = s.links.previous front then .popClear new old
                     else .popNext new old }
  | .popClear new old => { s with head := none, fork := .popNext new old }
  | .popNext new old =>
      { s with links := { s.links with
                 next := Function.update s.links.next (s.links.previous old) (s.links.next old) }
               fork := .popPrevious new old }
  | .popPrevious new old =>
      { s with links := { s.links with
                 previous :=
                   Function.update s.links.previous (s.links.next old) (s.links.previous old) }
               kids := s.kids.erase new
               fork := .popFree old }
  | .popFree old => { s with used := Function.update s.used old false, fork := .out }

def goto (s : State) (w : Nat) (pc : WaitPc) : State :=
  { s with wait := Function.update s.wait w pc }

/-- The next step of thread `w`, which hands over the orphans of process `e`. -/
def waitStep (s : State) (w e : Nat) : State :=
  match s.wait w with
  | .out => s.goto w (.lock e)
  | .lock e => if s.lock = none then State.goto { s with lock := some w } w (.read e) else s
  | .read e =>
      match s.family e with
      | none => s.goto w .unlock
      | some grandchildren => s.goto w (.branch e s.head grandchildren)
  | .branch _ none grandchildren =>
      State.goto { s with stray := Function.update s.stray w (some grandchildren) } w .unlock
  | .branch e (some children) grandchildren =>
      s.goto w (.join e children grandchildren (s.links.previous grandchildren))
  | .join e children grandchildren tmp =>
      State.goto { s with links := { s.links with
        next := Function.update s.links.next (s.links.previous children) grandchildren } }
        w (.joinBack e children grandchildren tmp)
  | .joinBack e children grandchildren tmp =>
      State.goto { s with links := { s.links with
        previous :=
          Function.update s.links.previous grandchildren (s.links.previous children) } }
        w (.closeBack e children tmp)
  | .closeBack e children tmp =>
      State.goto { s with links := { s.links with
        previous := Function.update s.links.previous children tmp } } w (.close e children tmp)
  | .close e children tmp =>
      State.goto { s with
        links := { s.links with next := Function.update s.links.next tmp children }
        kids := s.kids ++ s.orphans e
        family := Function.update s.family e none
        orphans := Function.update s.orphans e [] } w .unlock
  | .unlock => State.goto { s with lock := none } w .out

end State

inductive Input where
  | fork (addr : Nat) (fails : Bool)
  | wait (w e : Nat)
deriving DecidableEq

def step (s : State) : Input → State
  | .fork addr fails => s.forkStep addr fails
  | .wait w e => s.waitStep w e

/-- No assignment to the list is outstanding. -/
def Quiet (s : State) : Prop := s.fork.inside = false ∧ ∀ w, (s.wait w).inside = false

/-- The list of `init` is circular, linked in both directions, and has each of its
children once. -/
def Formed (s : State) : Prop :=
  ∃ l, s.links.Ring l ∧ s.head = l.head? ∧ l.Perm s.kids

/-- The edits do not overlap, and a fork that fails finds its own process at the end. -/
def Apart (s : State) : Input → Prop
  | .fork _ _ =>
      match s.fork with
      | .check _ => ∀ w, (s.wait w).inside = false
      | .popTake new => (∀ w, (s.wait w).inside = false) ∧
          ∀ front, s.head = some front → s.links.previous front = new
      | _ => True
  | .wait w _ => (∃ e, s.wait w = .read e) → s.fork.inside = false

/-- Nothing is under way, and all lists are well formed. `init` has a child: a process
that waits descends from one. -/
structure Start (s : State) : Prop where
  fork : s.fork = .out
  wait : ∀ w, s.wait w = .out
  lock : s.lock = none
  kids : s.kids ≠ []
  ring : s.links.Ring s.kids
  head : s.head = s.kids.head?
  family : ∀ e, s.links.Ring (s.orphans e) ∧ s.family e = (s.orphans e).head?
  apart : ∀ e, List.Disjoint s.kids (s.orphans e)
  apart' : ∀ e e', e ≠ e' → List.Disjoint (s.orphans e) (s.orphans e')
  used : (∀ x ∈ s.kids, s.used x = true) ∧ ∀ e, ∀ x ∈ s.orphans e, s.used x = true

/-! ### The lists -/

namespace State

/-- With the links `m`, `k` is the list of `init` and `o e` that of the exited process `e`. -/
structure Lists (s : State) (m : Links Nat) (k : List Nat) (o : Nat → List Nat) : Prop where
  ring : m.Ring k
  head : s.head = k.head?
  family : ∀ e, m.Ring (o e)
  apart : ∀ e, List.Disjoint k (o e)
  apart' : ∀ e e', e ≠ e' → List.Disjoint (o e) (o e')
  used : (∀ x ∈ k, s.used x = true) ∧ ∀ e, ∀ x ∈ o e, s.used x = true

/-- A node in no list. -/
def Away (s : State) (x : Nat) : Prop := x ∉ s.kids ∧ ∀ e, x ∉ s.orphans e

namespace Lists

variable {s s' : State} {m m' : Links Nat} {k : List Nat} {o : Nat → List Nat} {x e : Nat}

theorem of_eq (h : s.Lists m k o) (head : s'.head = s.head) (used : s'.used = s.used) :
    s'.Lists m k o :=
  ⟨h.ring, head ▸ h.head, h.family, h.apart, h.apart', used ▸ h.used⟩

/-- The links of a node in no list may be written. -/
theorem touch (h : s.Lists m k o) (away : x ∉ k ∧ ∀ e, x ∉ o e)
    (next : ∀ y, y ≠ x → m'.next y = m.next y)
    (previous : ∀ y, y ≠ x → m'.previous y = m.previous y) : s.Lists m' k o := by
  have keep : ∀ {l}, m.Ring l → x ∉ l → m'.Ring l := by
    intro l ring out
    have ne : ∀ y ∈ l, y ≠ x := by
      rintro y hy rfl
      exact out hy
    exact ring.congr (fun y hy => next y (ne y hy)) fun y hy => previous y (ne y hy)
  exact ⟨keep h.ring away.1, h.head, fun e => keep (h.family e) (away.2 e), h.apart, h.apart', h.used⟩

/-- `PUSH_BACK`, all of it. -/
theorem push {f : Nat} (h : s.Lists m k o) (first : k.head? = some f)
    (away : x ∉ k ∧ ∀ e, x ∉ o e) (used : s.used x = true) :
    s.Lists (m.insertBefore x f) (k ++ [x]) o := by
  cases k with
  | nil => cases first
  | cons a k =>
    cases Option.some.inj first
    refine ⟨h.ring.insertBefore away.1, h.head, ?_, ?_, h.apart', ?_, h.used.2⟩
    · intro e
      exact (h.family e).of_insertBefore h.ring (away.2 e) (List.disjoint_comm.mp (h.apart e))
    · intro e y hy ho
      rcases List.mem_append.mp hy with old | new
      · exact h.apart e old ho
      · rw [List.mem_singleton.mp new] at ho
        exact away.2 e ho
    · intro y hy
      rcases List.mem_append.mp hy with old | new
      · exact h.used.1 y old
      · rw [List.mem_singleton.mp new]
        exact used

/-- `POP_BACK`, all of it, where the node is not the head. -/
theorem pop (h : s.Lists m k o) (mem : x ∈ k) (notFirst : k.head? ≠ some x) :
    s.Lists (m.unlink x) (k.erase x) o := by
  refine ⟨h.ring.erase mem, ?_, ?_, ?_, h.apart', ?_, h.used.2⟩
  · rw [h.head, h.ring.head_erase mem, if_neg notFirst]
  · exact fun e => (h.family e).of_unlink h.ring mem (List.disjoint_comm.mp (h.apart e))
  · exact fun e y hy ho => h.apart e (List.mem_of_mem_erase hy) ho
  · exact fun y hy => h.used.1 y (List.mem_of_mem_erase hy)

/-- The hand-over, all of it. -/
theorem splice {c g : Nat} (h : s.Lists m k o) (first : k.head? = some c)
    (orphan : (o e).head? = some g) :
    s.Lists (m.splice c g) (k ++ o e) (Function.update o e []) := by
  cases k with
  | nil => cases first
  | cons a k =>
    cases Option.some.inj first
    obtain ⟨gs, family⟩ : ∃ gs, o e = g :: gs := by
      cases h : o e with
      | nil =>
        rw [h] at orphan
        cases orphan
      | cons b gs =>
        rw [h] at orphan
        cases Option.some.inj orphan
        exact ⟨gs, rfl⟩
    have ring := h.family e
    have disjoint := h.apart e
    rw [family] at ring disjoint ⊢
    refine ⟨h.ring.splice ring disjoint, h.head, ?_, ?_, ?_, ?_, ?_⟩
    · intro e'
      by_cases same : e' = e
      · rw [same, Function.update_self]
        trivial
      · rw [Function.update_of_ne same]
        have apart := h.apart' e' e same
        rw [family] at apart
        exact (h.family e').of_splice h.ring ring (List.disjoint_comm.mp (h.apart e')) apart
    · intro e' y hy ho
      by_cases same : e' = e
      · rw [same, Function.update_self] at ho
        cases ho
      · rw [Function.update_of_ne same] at ho
        rcases List.mem_append.mp hy with old | new
        · exact h.apart e' old ho
        · rw [← family] at new
          exact h.apart' e' e same ho new
    · intro e' e'' ne y hy hy'
      by_cases same : e' = e
      · rw [same, Function.update_self] at hy
        cases hy
      · by_cases same' : e'' = e
        · rw [same', Function.update_self] at hy'
          cases hy'
        · rw [Function.update_of_ne same] at hy
          rw [Function.update_of_ne same'] at hy'
          exact h.apart' e' e'' ne hy hy'
    · intro y hy
      rcases List.mem_append.mp hy with old | new
      · exact h.used.1 y old
      · rw [← family] at new
        exact h.used.2 e y new
    · intro e' y hy
      by_cases same : e' = e
      · rw [same, Function.update_self] at hy
        cases hy
      · rw [Function.update_of_ne same] at hy
        exact h.used.2 e' y hy

end Lists

/-! ### The invariant -/

/-- What holds at each place of the fork while nobody hands orphans over. Between the
two assignments that link or unlink a node, the links are those after the second. -/
def Editing (s : State) : ForkPc → Prop
  | .alonePrevious _ | .aloneNext _ | .aloneFront _ | .popClear _ _ => False
  | .setPrevious new => s.Lists s.links s.kids s.orphans ∧ s.Away new ∧ s.used new = true
  | .setNext new => s.Lists s.links s.kids s.orphans ∧ s.Away new ∧ s.used new = true ∧
      ∀ front, s.head = some front → s.links.previous new = s.links.previous front
  | .linkPrevious new => s.Lists s.links s.kids s.orphans ∧ s.Away new ∧ s.used new = true ∧
      ∀ front, s.head = some front → s.links.previous new = s.links.previous front ∧
        s.links.next new = front
  | .linkNext new => s.Away new ∧
      s.Lists { s.links with previous := Function.update s.links.previous (s.links.next new) new }
        (s.kids ++ [new]) s.orphans
  | .popTest new old | .popNext new old => s.Lists s.links s.kids s.orphans ∧ old = new ∧
      new ∈ s.kids ∧ s.kids.head? ≠ some new
  | .popPrevious new old => old = new ∧ s.kids.Nodup ∧ (∀ e, new ∉ s.orphans e) ∧
      s.kids.head? ≠ some new ∧ s.Lists { s.links with
        previous := Function.update s.links.previous (s.links.next old) (s.links.previous old) }
        (s.kids.erase new) s.orphans
  | _ => s.Lists s.links s.kids s.orphans

/-- What holds at each place of the hand-over while no fork edits the list; the links are
those after the last assignment. -/
def Handing (s : State) : WaitPc → Prop
  | .branch e children grandchildren => s.Lists s.links s.kids s.orphans ∧ children = s.head ∧
      (s.orphans e).head? = some grandchildren
  | .join e children grandchildren tmp => s.Lists s.links s.kids s.orphans ∧
      s.kids.head? = some children ∧ (s.orphans e).head? = some grandchildren ∧
      tmp = s.links.previous grandchildren
  | .joinBack e children grandchildren tmp =>
      s.Lists ⟨Function.update s.links.next tmp children,
        Function.update (Function.update s.links.previous grandchildren
          (s.links.previous children)) children tmp⟩
        (s.kids ++ s.orphans e) (Function.update s.orphans e [])
  | .closeBack e children tmp =>
      s.Lists ⟨Function.update s.links.next tmp children,
        Function.update s.links.previous children tmp⟩
        (s.kids ++ s.orphans e) (Function.update s.orphans e [])
  | .close e children tmp =>
      s.Lists ⟨Function.update s.links.next tmp children, s.links.previous⟩
        (s.kids ++ s.orphans e) (Function.update s.orphans e [])
  | _ => s.Lists s.links s.kids s.orphans

/-- What the fork relies on while others hand orphans over. -/
def Relies (s : State) : ForkPc → Prop
  | .check new => s.Away new ∧ s.used new = true
  | .popFree new => s.Away new
  | .made new | .popTake new => new ∈ s.kids ∧ s.kids.head? ≠ some new
  | _ => True

end State

/-- With the lock of `init`. -/
def WaitPc.locked : WaitPc → Bool
  | .out | .lock _ => false
  | _ => true

structure Inv (s : State) : Prop where
  kids : s.kids ≠ []
  family : ∀ e, s.family e = (s.orphans e).head?
  lock : ∀ w, (s.wait w).locked = true → s.lock = some w
  relies : s.Relies s.fork
  phase : ((∀ w, (s.wait w).inside = false) ∧ s.Editing s.fork) ∨
    (s.fork.inside = false ∧ ∃ w, (s.wait w).inside = true ∧
      (∀ v, (s.wait v).inside = true → v = w) ∧ s.Handing (s.wait w))

theorem inv_start {s : State} (start : Start s) : Inv s where
  kids := start.kids
  family e := (start.family e).2
  lock w h := by simp [start.wait w, WaitPc.locked] at h
  relies := by rw [start.fork]; trivial
  phase := by
    refine Or.inl ⟨fun w => by rw [start.wait w]; rfl, ?_⟩
    rw [start.fork]
    exact ⟨start.ring, start.head, fun e => (start.family e).1, start.apart, start.apart', start.used⟩

/-! ### Steps of the fork -/

namespace Inv

variable {s : State} {new old : Nat}

/-- A step of the fork that leaves the lists of the bookkeeping as they are. -/
theorem forks {s' : State} (inv : Inv s) (nobody : ∀ w, (s.wait w).inside = false)
    (kids : s'.kids ≠ []) (family : s'.family = s.family) (orphans : s'.orphans = s.orphans)
    (lock : s'.lock = s.lock) (wait : s'.wait = s.wait) (relies : s'.Relies s'.fork)
    (editing : s'.Editing s'.fork) : Inv s' where
  kids := kids
  family e := by
    rw [family, orphans]
    exact inv.family e
  lock w h := by
    rw [wait] at h
    rw [lock]
    exact inv.lock w h
  relies := relies
  phase := Or.inl ⟨by rw [wait]; exact nobody, editing⟩

theorem head_some (lists : s.Lists s.links s.kids s.orphans) (kids : s.kids ≠ []) :
    ∃ front, s.head = some front ∧ s.kids.head? = some front := by
  obtain ⟨front, h⟩ := Option.ne_none_iff_exists'.mp
    (fun empty : s.kids.head? = none => kids (List.head?_eq_none_iff.mp empty))
  exact ⟨front, lists.head.trans h, h⟩

variable (inv : Inv s) (nobody : ∀ w, (s.wait w).inside = false)

include inv nobody

theorem check (hf : s.fork = .check new) (lists : s.Lists s.links s.kids s.orphans) :
    Inv { s with fork := if s.head = none then .alonePrevious new else .setPrevious new } := by
  obtain ⟨front, head, -⟩ := head_some lists inv.kids
  have relies := inv.relies
  rw [hf] at relies
  rw [if_neg (by simp [head])]
  exact inv.forks nobody inv.kids rfl rfl rfl rfl trivial ⟨lists.of_eq rfl rfl, relies⟩

theorem setPrevious {front : Nat} (hd : s.head = some front)
    (h : s.Editing (.setPrevious new)) :
    Inv { s with
      links := { s.links with
        previous := Function.update s.links.previous new (s.links.previous front) }
      fork := .setNext new } := by
  obtain ⟨lists, away, used⟩ := h
  have first : s.kids.head? = some front := lists.head.symm.trans hd
  have ne : front ≠ new := by
    rintro rfl
    exact away.1 (List.mem_of_head? first)
  refine inv.forks nobody inv.kids rfl rfl rfl rfl trivial ⟨?_, away, used, ?_⟩
  · refine State.Lists.of_eq (s := s) ?_ rfl rfl
    exact lists.touch away (fun _ _ => rfl) fun y ne => Function.update_of_ne ne _ _
  · intro f hf
    cases Option.some.inj (hd.symm.trans hf)
    simp [ne]

theorem setNext {front : Nat} (hd : s.head = some front) (h : s.Editing (.setNext new)) :
    Inv { s with
      links := { s.links with next := Function.update s.links.next new front }
      fork := .linkPrevious new } := by
  obtain ⟨lists, away, used, previous⟩ := h
  refine inv.forks nobody inv.kids rfl rfl rfl rfl trivial ⟨?_, away, used, ?_⟩
  · refine State.Lists.of_eq (s := s) ?_ rfl rfl
    exact lists.touch away (fun y ne => Function.update_of_ne ne _ _) fun _ _ => rfl
  · intro f hf
    cases Option.some.inj (hd.symm.trans hf)
    exact ⟨previous front hd, by simp⟩

/-- After this assignment the next one completes `PUSH_BACK`. -/
theorem linkPrevious (h : s.Editing (.linkPrevious new)) :
    Inv { s with
      links := { s.links with next := Function.update s.links.next (s.links.previous new) new }
      fork := .linkNext new } := by
  obtain ⟨lists, away, used, ready⟩ := h
  obtain ⟨front, hd, first⟩ := head_some lists inv.kids
  obtain ⟨previous, next⟩ := ready front hd
  have mem : front ∈ s.kids := List.mem_of_head? first
  have ne : new ≠ s.links.previous front := by
    intro eq
    exact away.1 (eq ▸ lists.ring.previous_mem mem)
  refine inv.forks nobody inv.kids rfl rfl rfl rfl trivial ⟨away, ?_⟩
  have pushed := lists.push first away used
  have eq : s.links.insertBefore new front =
      ⟨Function.update s.links.next (s.links.previous new) new,
        Function.update s.links.previous
          (Function.update s.links.next (s.links.previous new) new new) new⟩ := by
    rw [previous, Function.update_of_ne ne, next]
    simp only [Links.insertBefore]
    rw [← previous, Function.update_eq_self, ← next, Function.update_eq_self]
  rw [eq] at pushed
  exact pushed.of_eq rfl rfl

theorem linkNext (h : s.Editing (.linkNext new)) :
    Inv { s with
      links := { s.links with
        previous := Function.update s.links.previous (s.links.next new) new }
      kids := s.kids ++ [new]
      fork := .made new } := by
  obtain ⟨away, lists⟩ := h
  refine inv.forks nobody (by simp) rfl rfl rfl rfl ⟨by simp, ?_⟩ (lists.of_eq rfl rfl)
  dsimp only
  rw [List.head?_append_of_ne_nil _ inv.kids]
  intro first
  exact away.1 (List.mem_of_head? first)

/-- The process that is taken out is the one that was put in. -/
theorem popTake (hf : s.fork = .popTake new) (lists : s.Lists s.links s.kids s.orphans)
    {front : Nat} (last : s.links.previous front = new) :
    Inv { s with fork := .popTest new (s.links.previous front) } := by
  have relies := inv.relies
  rw [hf] at relies
  exact inv.forks nobody inv.kids rfl rfl rfl rfl trivial ⟨lists.of_eq rfl rfl, last, relies⟩

theorem popTest {front : Nat} (hd : s.head = some front) (h : s.Editing (.popTest new old)) :
    Inv { s with fork := if front = s.links.previous front then .popClear new old
      else .popNext new old } := by
  obtain ⟨lists, same, mem, notFirst⟩ := h
  have first : s.kids.head? = some front := lists.head.symm.trans hd
  have more : front ≠ s.links.previous front := by
    intro self
    have single := (lists.ring.reverse.next_eq_self (x := front)
      (by simpa using List.mem_of_head? first)).mp self.symm
    have : s.kids = [front] := by simpa using congrArg List.reverse single
    rw [this] at mem notFirst
    rw [List.mem_singleton.mp mem] at notFirst
    exact notFirst rfl
  rw [if_neg more]
  exact inv.forks nobody inv.kids rfl rfl rfl rfl trivial ⟨lists.of_eq rfl rfl, same, mem, notFirst⟩

/-- After this assignment the next one completes `POP_BACK`. -/
theorem popNext (h : s.Editing (.popNext new old)) :
    Inv { s with
      links := { s.links with
        next := Function.update s.links.next (s.links.previous old) (s.links.next old) }
      fork := .popPrevious new old } := by
  obtain ⟨lists, rfl, mem, notFirst⟩ := h
  have ne : old ≠ s.links.previous old := by
    intro self
    have single := (lists.ring.reverse.next_eq_self (x := old) (by simpa using mem)).mp self.symm
    have : s.kids = [old] := by simpa using congrArg List.reverse single
    rw [this] at notFirst
    exact notFirst rfl
  refine inv.forks nobody inv.kids rfl rfl rfl rfl trivial
    ⟨rfl, lists.ring.nodup, fun e => lists.apart e mem, notFirst, ?_⟩
  have popped := lists.pop mem notFirst
  have eq : s.links.unlink old =
      ⟨Function.update s.links.next (s.links.previous old) (s.links.next old),
        Function.update s.links.previous
          (Function.update s.links.next (s.links.previous old) (s.links.next old) old)
          (s.links.previous old)⟩ := by
    rw [Function.update_of_ne ne]
    rfl
  rw [eq] at popped
  exact popped.of_eq rfl rfl

theorem popPrevious (h : s.Editing (.popPrevious new old)) :
    Inv { s with
      links := { s.links with
        previous := Function.update s.links.previous (s.links.next old) (s.links.previous old) }
      kids := s.kids.erase new
      fork := .popFree old } := by
  obtain ⟨rfl, nodup, away, notFirst, lists⟩ := h
  have some : s.kids.erase old ≠ [] := by
    cases hk : s.kids with
    | nil => exact absurd hk inv.kids
    | cons a k =>
      have ne : a ≠ old := by
        rintro rfl
        rw [hk] at notFirst
        exact notFirst rfl
      rw [List.erase_cons_tail (by simpa using ne)]
      exact List.cons_ne_nil _ _
  exact inv.forks nobody some rfl rfl rfl rfl ⟨nodup.not_mem_erase, away⟩ (lists.of_eq rfl rfl)

end Inv

namespace State

variable {s s' : State} {pc : WaitPc}

theorem Lists.of_used {m : Links Nat} {k : List Nat} {o : Nat → List Nat} (h : s.Lists m k o)
    (head : s'.head = s.head)
    (used : ∀ x, (x ∈ k ∨ ∃ e, x ∈ o e) → s.used x = true → s'.used x = true) :
    s'.Lists m k o :=
  ⟨h.ring, head ▸ h.head, h.family, h.apart, h.apart',
    fun x hx => used x (Or.inl hx) (h.used.1 x hx),
    fun e x hx => used x (Or.inr ⟨e, hx⟩) (h.used.2 e x hx)⟩

/-- The nodes of a list in the middle of a hand-over are those of the two lists. -/
theorem mem_spliced {e x : Nat}
    (h : x ∈ s.kids ++ s.orphans e ∨ ∃ e', x ∈ Function.update s.orphans e [] e') :
    x ∈ s.kids ∨ ∃ e', x ∈ s.orphans e' := by
  rcases h with h | ⟨e', h⟩
  · rcases List.mem_append.mp h with h | h
    · exact Or.inl h
    · exact Or.inr ⟨e, h⟩
  · by_cases same : e' = e
    · rw [same, Function.update_self] at h
      cases h
    · rw [Function.update_of_ne same] at h
      exact Or.inr ⟨e', h⟩

/-- A hand-over does not depend on the allocation of other nodes. -/
theorem Handing.of_used (h : s.Handing pc) (links : s'.links = s.links) (head : s'.head = s.head)
    (kids : s'.kids = s.kids) (orphans : s'.orphans = s.orphans)
    (used : ∀ x, (x ∈ s.kids ∨ ∃ e, x ∈ s.orphans e) → s.used x = true → s'.used x = true) :
    s'.Handing pc := by
  cases pc with
  | branch e children g =>
    simp only [Handing, links, kids, orphans, head] at h ⊢
    exact ⟨h.1.of_used head used, h.2⟩
  | join e children g tmp =>
    simp only [Handing, links, kids, orphans] at h ⊢
    exact ⟨h.1.of_used head used, h.2⟩
  | joinBack e children g tmp | closeBack e children tmp | close e children tmp =>
    simp only [Handing, links, kids, orphans] at h ⊢
    exact Lists.of_used h head fun x hx => used x (mem_spliced hx)
  | _ =>
    simp only [Handing, links, kids, orphans] at h ⊢
    exact Lists.of_used h head used

/-- Nodes in a list are allocated. -/
theorem Handing.used (h : s.Handing pc) : (∀ x ∈ s.kids, s.used x = true) ∧
    ∀ e, ∀ x ∈ s.orphans e, s.used x = true := by
  have spliced : ∀ {e m}, s.Lists m (s.kids ++ s.orphans e) (Function.update s.orphans e []) →
      (∀ x ∈ s.kids, s.used x = true) ∧ ∀ e, ∀ x ∈ s.orphans e, s.used x = true := by
    intro e m lists
    refine ⟨fun x hx => lists.used.1 x (List.mem_append_left _ hx), fun e' x hx => ?_⟩
    by_cases same : e' = e
    · rw [same] at hx
      exact lists.used.1 x (List.mem_append_right _ hx)
    · exact lists.used.2 e' x (by rw [Function.update_of_ne same]; exact hx)
  cases pc with
  | branch | join => exact h.1.used
  | joinBack | closeBack | close => exact spliced h
  | _ => exact Lists.used h

/-- What the fork relies on depends on the lists only. -/
theorem Relies.of_eq {pc : ForkPc} (h : s.Relies pc) (kids : s'.kids = s.kids)
    (orphans : s'.orphans = s.orphans) (used : s'.used = s.used) : s'.Relies pc := by
  cases pc with
  | check new | popFree new | made new | popTake new =>
    simpa only [Relies, Away, kids, orphans, used] using h
  | _ => trivial

end State

namespace Inv

variable {s : State}

theorem lists_of_out (inv : Inv s) (outside : s.fork.inside = false)
    (nobody : ∀ w, (s.wait w).inside = false) : s.Lists s.links s.kids s.orphans := by
  rcases inv.phase with ⟨-, editing⟩ | ⟨-, w, inside, -⟩
  · cases hf : s.fork <;> rw [hf] at editing outside
    all_goals first | exact editing | cases outside
  · rw [nobody w] at inside
    cases inside

theorem used (inv : Inv s) (outside : s.fork.inside = false) : (∀ x ∈ s.kids, s.used x = true) ∧
    ∀ e, ∀ x ∈ s.orphans e, s.used x = true := by
  rcases inv.phase with ⟨nobody, -⟩ | ⟨-, w, -, -, handing⟩
  · exact (inv.lists_of_out outside nobody).used
  · exact handing.used

/-- A step of the fork away from the list. -/
theorem forksAway {s' : State} (inv : Inv s) (outside : s.fork.inside = false)
    (outside' : s'.fork.inside = false) (links : s'.links = s.links) (head : s'.head = s.head)
    (kids : s'.kids = s.kids) (orphans : s'.orphans = s.orphans) (family : s'.family = s.family)
    (lock : s'.lock = s.lock) (wait : s'.wait = s.wait)
    (used : ∀ x, (x ∈ s.kids ∨ ∃ e, x ∈ s.orphans e) → s.used x = true → s'.used x = true)
    (relies : s'.Relies s'.fork) : Inv s' where
  kids := by
    rw [kids]
    exact inv.kids
  family e := by
    rw [family, orphans]
    exact inv.family e
  lock w h := by
    rw [wait] at h
    rw [lock]
    exact inv.lock w h
  relies := relies
  phase := by
    rw [wait]
    rcases inv.phase with ⟨nobody, -⟩ | ⟨-, w, inside, only, handing⟩
    · have lists : s'.Lists s'.links s'.kids s'.orphans := by
        rw [links, kids, orphans]
        exact (inv.lists_of_out outside nobody).of_used head used
      refine Or.inl ⟨nobody, ?_⟩
      cases hf : s'.fork <;> rw [hf] at outside'
      all_goals first | exact lists | cases outside'
    · exact Or.inr ⟨outside', w, inside, only, handing.of_used links head kids orphans used⟩

theorem forkStep {addr : Nat} {fails : Bool} (inv : Inv s) (apart : Apart s (.fork addr fails)) :
    Inv (s.forkStep addr fails) := by
  by_cases inside : s.fork.inside = true
  · obtain ⟨nobody, editing⟩ : (∀ w, (s.wait w).inside = false) ∧ s.Editing s.fork := by
      rcases inv.phase with h | ⟨outside, -⟩
      · exact h
      · rw [outside] at inside
        cases inside
    unfold State.forkStep
    cases hf : s.fork with
    | alonePrevious | aloneNext | aloneFront | popClear =>
      rw [hf] at editing
      exact editing.elim
    | setPrevious new =>
      rw [hf] at editing
      dsimp only
      split
      · exact inv
      · rename_i front hd
        exact inv.setPrevious nobody hd editing
    | setNext new =>
      rw [hf] at editing
      dsimp only
      split
      · exact inv
      · rename_i front hd
        exact inv.setNext nobody hd editing
    | linkPrevious new =>
      rw [hf] at editing
      exact inv.linkPrevious nobody editing
    | linkNext new =>
      rw [hf] at editing
      exact inv.linkNext nobody editing
    | popTest new old =>
      rw [hf] at editing
      dsimp only
      split
      · exact inv
      · rename_i front hd
        exact inv.popTest nobody hd editing
    | popNext new old =>
      rw [hf] at editing
      exact inv.popNext nobody editing
    | popPrevious new old =>
      rw [hf] at editing
      exact inv.popPrevious nobody editing
    | _ => simp [hf, ForkPc.inside] at inside
  · have outside : s.fork.inside = false := by simpa using inside
    have relies := inv.relies
    unfold State.forkStep
    cases hf : s.fork with
    | out =>
      dsimp only
      split
      · exact inv
      · rename_i free
        have used := inv.used outside
        refine inv.forksAway outside rfl rfl rfl rfl rfl rfl rfl rfl ?_ ⟨⟨?_, ?_⟩, by simp⟩
        · intro x _ hx
          by_cases eq : x = addr
          · simp [eq]
          · simpa [eq] using hx
        · exact fun mem => free (used.1 addr mem)
        · exact fun e mem => free (used.2 e addr mem)
    | check new =>
      rw [Apart, hf] at apart
      exact inv.check apart hf (inv.lists_of_out outside apart)
    | made new =>
      rw [hf] at relies
      refine inv.forksAway outside ?_ rfl rfl rfl rfl rfl rfl rfl (fun _ _ h => h) ?_
      · cases fails <;> rfl
      · cases fails
        · trivial
        · exact relies
    | popTake new =>
      rw [Apart, hf] at apart
      dsimp only
      split
      · exact inv
      · rename_i front hd
        exact inv.popTake apart.1 hf (inv.lists_of_out outside apart.1) (apart.2 front hd)
    | popFree old =>
      rw [hf] at relies
      refine inv.forksAway outside rfl rfl rfl rfl rfl rfl rfl rfl ?_ trivial
      intro x hx used
      have ne : x ≠ old := by
        rintro rfl
        rcases hx with hx | ⟨e, hx⟩
        · exact relies.1 hx
        · exact relies.2 e hx
      simpa [ne] using used
    | _ => simp [hf, ForkPc.inside] at inside

end Inv

/-! ### Steps of the hand-over -/

namespace Inv

variable {s : State} {w e : Nat}

/-- A step of a thread that is not between the first read and the last assignment. -/
theorem waitsAway {s' : State} (inv : Inv s) (pc : WaitPc) (outside : (s.wait w).inside = false)
    (outside' : pc.inside = false) (links : s'.links = s.links) (head : s'.head = s.head)
    (kids : s'.kids = s.kids) (orphans : s'.orphans = s.orphans) (family : s'.family = s.family)
    (used : s'.used = s.used) (fork : s'.fork = s.fork)
    (wait : s'.wait = Function.update s.wait w pc)
    (lock : ∀ v, (s'.wait v).locked = true → s'.lock = some v) : Inv s' where
  kids := by
    rw [kids]
    exact inv.kids
  family e := by
    rw [family, orphans]
    exact inv.family e
  lock := lock
  relies := by
    rw [fork]
    exact inv.relies.of_eq kids orphans used
  phase := by
    rw [fork]
    have inside_iff : ∀ v, (s'.wait v).inside = (s.wait v).inside := by
      intro v
      rw [wait]
      by_cases same : v = w
      · rw [same, Function.update_self, outside, outside']
      · rw [Function.update_of_ne same]
    rcases inv.phase with ⟨nobody, editing⟩ | ⟨forkOut, v, inside, only, handing⟩
    · refine Or.inl ⟨fun v => by rw [inside_iff]; exact nobody v, ?_⟩
      have lists : ∀ {m k o}, s.Lists m k o → s'.Lists m k o := fun h => h.of_eq head used
      cases hf : s.fork <;> rw [hf] at editing
      all_goals
        simp only [State.Editing, State.Away, links, head, kids, orphans, used] at editing ⊢
      all_goals first
        | exact lists editing
        | exact ⟨lists editing.1, editing.2⟩
        | exact ⟨editing.1, lists editing.2⟩
        | exact ⟨editing.1, editing.2.1, editing.2.2.1, editing.2.2.2.1, lists editing.2.2.2.2⟩
    · have ne : v ≠ w := by
        rintro rfl
        rw [outside] at inside
        cases inside
      refine Or.inr ⟨forkOut, v, by rw [inside_iff]; exact inside, ?_, ?_⟩
      · intro u hu
        rw [inside_iff] at hu
        exact only u hu
      · rw [wait, Function.update_of_ne ne]
        exact handing.of_used links head kids orphans fun x _ h => by rw [used]; exact h

end Inv

namespace Inv

variable {s : State} {w e children grandchildren tmp : Nat}

/-- Whoever is inside holds the lock, so it is nobody else. -/
theorem only_inside (inv : Inv s) (locked : (s.wait w).locked = true) :
    ∀ v, (s.wait v).inside = true → v = w := by
  intro v inside
  have lockedV : (s.wait v).locked = true := by
    cases hv : s.wait v <;> rw [hv] at inside <;> first | rfl | cases inside
  have := inv.lock v lockedV
  rw [inv.lock w locked] at this
  exact (Option.some.inj this).symm

/-- What a thread inside knows. -/
theorem handing (inv : Inv s) (inside : (s.wait w).inside = true) :
    s.fork.inside = false ∧ s.Handing (s.wait w) := by
  rcases inv.phase with ⟨nobody, -⟩ | ⟨outside, v, -, only, handing⟩
  · rw [nobody w] at inside
    cases inside
  · rw [only w inside]
    exact ⟨outside, handing⟩

/-- The lock stays with a thread that goes on. -/
theorem lock_goto {pc : WaitPc} (inv : Inv s) (locked : (s.wait w).locked = true) (v : Nat)
    (h : (Function.update s.wait w pc v).locked = true) : s.lock = some v := by
  by_cases same : v = w
  · rw [same]
    exact inv.lock w locked
  · rw [Function.update_of_ne same] at h
    exact inv.lock v h

/-- A step inside the hand-over. -/
theorem waitsInside {s' : State} {pc : WaitPc} (inv : Inv s) (locked : (s.wait w).locked = true)
    (forkOut : s.fork.inside = false) (inside : pc.inside = true) (kids : s'.kids = s.kids)
    (orphans : s'.orphans = s.orphans) (family : s'.family = s.family) (used : s'.used = s.used)
    (fork : s'.fork = s.fork) (lock : s'.lock = s.lock)
    (wait : s'.wait = Function.update s.wait w pc) (handing : s'.Handing pc) : Inv s' where
  kids := by
    rw [kids]
    exact inv.kids
  family e := by
    rw [family, orphans]
    exact inv.family e
  lock v h := by
    rw [wait] at h
    rw [lock]
    exact inv.lock_goto locked v h
  relies := by
    rw [fork]
    exact inv.relies.of_eq kids orphans used
  phase := by
    rw [fork, wait]
    refine Or.inr ⟨forkOut, w, by rw [Function.update_self]; exact inside, ?_, ?_⟩
    · intro v hv
      by_contra ne
      rw [Function.update_of_ne ne] at hv
      exact ne (inv.only_inside locked v hv)
    · rw [Function.update_self]
      exact handing

theorem read (inv : Inv s) (hw : s.wait w = .read e) (forkOut : s.fork.inside = false)
    (family : s.family e = some grandchildren) :
    Inv (s.goto w (.branch e s.head grandchildren)) := by
  have locked : (s.wait w).locked = true := by rw [hw]; rfl
  have nobody : ∀ v, (s.wait v).inside = false := by
    intro v
    by_contra inside
    have same := inv.only_inside locked v (by simpa using inside)
    rw [same, hw] at inside
    exact inside rfl
  have lists := inv.lists_of_out forkOut nobody
  refine inv.waitsInside locked forkOut rfl rfl rfl rfl rfl rfl rfl rfl ⟨?_, rfl, ?_⟩
  · exact lists.of_eq rfl rfl
  · exact (inv.family e).symm.trans family

theorem branch (inv : Inv s) (hw : s.wait w = .branch e (some children) grandchildren) :
    Inv (s.goto w (.join e children grandchildren (s.links.previous grandchildren))) := by
  obtain ⟨forkOut, handing⟩ := inv.handing (w := w) (by rw [hw]; rfl)
  rw [hw] at handing
  obtain ⟨lists, head, orphan⟩ := handing
  refine inv.waitsInside (by rw [hw]; rfl) forkOut rfl rfl rfl rfl rfl rfl rfl rfl
    ⟨lists.of_eq rfl rfl, ?_, orphan, rfl⟩
  exact lists.head.symm.trans head.symm

/-- After this assignment three more complete the hand-over. -/
theorem join (inv : Inv s) (hw : s.wait w = .join e children grandchildren tmp) :
    Inv (State.goto { s with links := { s.links with
      next := Function.update s.links.next (s.links.previous children) grandchildren } }
      w (.joinBack e children grandchildren tmp)) := by
  obtain ⟨forkOut, handing⟩ := inv.handing (w := w) (by rw [hw]; rfl)
  rw [hw] at handing
  obtain ⟨lists, first, orphan, rfl⟩ := handing
  refine inv.waitsInside (by rw [hw]; rfl) forkOut rfl rfl rfl rfl rfl rfl rfl rfl ?_
  exact (lists.splice first orphan).of_eq rfl rfl

theorem joinBack (inv : Inv s) (hw : s.wait w = .joinBack e children grandchildren tmp) :
    Inv (State.goto { s with links := { s.links with
      previous := Function.update s.links.previous grandchildren (s.links.previous children) } }
      w (.closeBack e children tmp)) := by
  obtain ⟨forkOut, handing⟩ := inv.handing (w := w) (by rw [hw]; rfl)
  rw [hw] at handing
  exact inv.waitsInside (by rw [hw]; rfl) forkOut rfl rfl rfl rfl rfl rfl rfl rfl
    (State.Lists.of_eq handing rfl rfl)

theorem closeBack (inv : Inv s) (hw : s.wait w = .closeBack e children tmp) :
    Inv (State.goto { s with links := { s.links with
      previous := Function.update s.links.previous children tmp } } w (.close e children tmp)) := by
  obtain ⟨forkOut, handing⟩ := inv.handing (w := w) (by rw [hw]; rfl)
  rw [hw] at handing
  exact inv.waitsInside (by rw [hw]; rfl) forkOut rfl rfl rfl rfl rfl rfl rfl rfl
    (State.Lists.of_eq handing rfl rfl)

/-- The orphans are children of `init`. -/
theorem close (inv : Inv s) (hw : s.wait w = .close e children tmp) :
    Inv (State.goto { s with
      links := { s.links with next := Function.update s.links.next tmp children }
      kids := s.kids ++ s.orphans e
      family := Function.update s.family e none
      orphans := Function.update s.orphans e [] } w .unlock) := by
  have locked : (s.wait w).locked = true := by rw [hw]; rfl
  obtain ⟨forkOut, handing⟩ := inv.handing (w := w) (by rw [hw]; rfl)
  rw [hw] at handing
  have away : ∀ x, s.Away x → x ∉ s.kids ++ s.orphans e ∧
      ∀ e', x ∉ Function.update s.orphans e [] e' := by
    rintro x ⟨h, h'⟩
    have none : ¬ (x ∈ s.kids ∨ ∃ e', x ∈ s.orphans e') := by
      rintro (mem | ⟨e', mem⟩)
      · exact h mem
      · exact h' e' mem
    exact ⟨fun mem => none (State.mem_spliced (Or.inl mem)),
      fun e' mem => none (State.mem_spliced (e := e) (Or.inr ⟨e', mem⟩))⟩
  have relies := inv.relies
  refine ⟨?_, ?_, fun v h => inv.lock_goto locked v h, ?_, Or.inl ⟨?_, ?_⟩⟩
  · simp [State.goto, inv.kids]
  · intro e'
    by_cases same : e' = e
    · simp [State.goto, same]
    · simpa [State.goto, same] using inv.family e'
  · change State.Relies _ s.fork
    cases hf : s.fork with
    | check new =>
      rw [hf] at relies
      exact ⟨away new relies.1, relies.2⟩
    | popFree new =>
      rw [hf] at relies
      exact away new relies
    | made new | popTake new =>
      rw [hf] at relies
      refine ⟨List.mem_append_left _ relies.1, ?_⟩
      rw [State.goto, List.head?_append_of_ne_nil _ inv.kids]
      exact relies.2
    | _ => trivial
  · intro v
    by_contra inside
    by_cases same : v = w
    · simp [State.goto, same, WaitPc.inside] at inside
    · simp only [State.goto, Function.update_of_ne same] at inside
      exact same (inv.only_inside locked v (by simpa using inside))
  · change State.Editing _ s.fork
    cases hf : s.fork <;> rw [hf] at forkOut
    all_goals first
      | exact State.Lists.of_eq handing rfl rfl
      | cases forkOut

theorem waitStep (inv : Inv s) (apart : Apart s (.wait w e)) : Inv (s.waitStep w e) := by
  unfold State.waitStep
  cases hw : s.wait w with
  | out =>
    refine inv.waitsAway (.lock e) (by rw [hw]; rfl) rfl rfl rfl rfl rfl rfl rfl rfl rfl ?_
    intro v h
    by_cases same : v = w
    · simp [State.goto, same, WaitPc.locked] at h
    · simp only [State.goto, Function.update_of_ne same] at h
      exact inv.lock v h
  | lock e' =>
    dsimp only
    split
    · rename_i free
      refine inv.waitsAway (.read e') (by rw [hw]; rfl) rfl rfl rfl rfl rfl rfl rfl rfl rfl ?_
      intro v h
      by_cases same : v = w
      · rw [same]
        rfl
      · simp only [State.goto, Function.update_of_ne same] at h
        rw [inv.lock v h] at free
        cases free
    · exact inv
  | read e' =>
    dsimp only
    split
    · exact inv.waitsAway .unlock (by rw [hw]; rfl) rfl rfl rfl rfl rfl rfl rfl rfl rfl
        fun v h => inv.lock_goto (by rw [hw]; rfl) v h
    · rename_i g family
      exact inv.read hw (apart ⟨e', hw⟩) family
  | branch e' c g =>
    cases c with
    | none =>
      -- `init` has a child, so the list of the caller is not assigned.
      obtain ⟨-, handing⟩ := inv.handing (w := w) (by rw [hw]; rfl)
      rw [hw] at handing
      have empty : s.kids.head? = none := handing.1.head.symm.trans handing.2.1.symm
      exact absurd (List.head?_eq_none_iff.mp empty) inv.kids
    | some c => exact inv.branch hw
  | join e' c g tmp => exact inv.join hw
  | joinBack e' c g tmp => exact inv.joinBack hw
  | closeBack e' c tmp => exact inv.closeBack hw
  | close e' c tmp => exact inv.close hw
  | unlock =>
    refine inv.waitsAway .out (by rw [hw]; rfl) rfl rfl rfl rfl rfl rfl rfl rfl rfl ?_
    intro v h
    by_cases same : v = w
    · simp [State.goto, same, WaitPc.locked] at h
    · simp only [State.goto, Function.update_of_ne same] at h
      have := inv.lock v h
      rw [inv.lock w (by rw [hw]; rfl)] at this
      exact absurd (Option.some.inj this).symm same

theorem step {i : Input} (inv : Inv s) (apart : Apart s i) : Inv (step s i) := by
  cases i with
  | fork addr fails => exact inv.forkStep apart
  | wait w e => exact inv.waitStep apart

end Inv

/-- In every run whose edits do not overlap, the list of `init` is well formed and complete
whenever no edit is under way. -/
theorem children_listed {s : State} (start : Start s) (is : List Input)
    (apart : StepsMeet step Apart s is) : Along step (fun s => Quiet s → Formed s) s is := by
  refine along_of_stepsMeet (I := Inv) ?_ (fun _ _ inv apart => inv.step apart)
    (inv_start start) apart
  intro s inv quiet
  have lists := inv.lists_of_out quiet.1 quiet.2
  exact ⟨s.kids, lists.ring, lists.head, List.Perm.refl _⟩

/-! ### Overlapping edits -/

theorem wait_forkStep (s : State) (addr : Nat) (fails : Bool) :
    (s.forkStep addr fails).wait = s.wait := by
  unfold State.forkStep
  split <;> first | rfl | (split <;> rfl)

theorem wait_waitStep (s : State) {v w e : Nat} (ne : v ≠ w) : (s.waitStep w e).wait v = s.wait v := by
  have other : ∀ (s' : State) (pc : WaitPc), s'.wait = s.wait → (s'.goto w pc).wait v = s.wait v := by
    intro s' pc same
    simp [State.goto, ne, same]
  unfold State.waitStep
  split <;> first | exact other _ _ rfl | (split <;> first | exact other _ _ rfl | rfl)

/-- A thread that takes no step stays where it is. -/
theorem wait_run {v : Nat} {is : List Input} (none : ∀ e, Input.wait v e ∉ is) (s : State) :
    (run step s is).wait v = s.wait v := by
  induction is generalizing s with
  | nil => rfl
  | cons i is ih =>
    have here : (step s i).wait v = s.wait v := by
      cases i with
      | fork addr fails => exact congrFun (wait_forkStep s addr fails) v
      | wait w e =>
        refine wait_waitStep s ?_
        rintro rfl
        exact none e List.mem_cons_self
    rw [run_cons, ih fun e mem => none e (List.mem_cons_of_mem _ mem), here]

/-- A loop over a well-formed list sees every child. -/
theorem Formed.walk {s : State} (formed : Formed s) {front : Nat} (head : s.head = some front) :
    (s.links.walk front s.kids.length front).Perm s.kids := by
  obtain ⟨l, ring, first, perm⟩ := formed
  cases l with
  | nil =>
    rw [head] at first
    cases first
  | cons a l =>
    rw [head] at first
    cases Option.some.inj first
    have length := perm.length_eq
    rw [ring.walk (by rw [← length]; simp)]
    exact perm

/-- `init` has child 1, and the exited process 9 has children 5 and 6. -/
def family9 : State where
  links := ⟨fun x => if x = 5 then 6 else if x = 6 then 5 else x,
    fun x => if x = 5 then 6 else if x = 6 then 5 else x⟩
  head := some 1
  family e := if e = 9 then some 5 else none
  stray _ := none
  lock := none
  used x := x = 1 || x = 5 || x = 6
  fork := .out
  wait _ := .out
  kids := [1]
  orphans e := if e = 9 then [5, 6] else []

theorem start_family9 : Start family9 where
  fork := rfl
  wait _ := rfl
  lock := rfl
  kids := List.cons_ne_nil _ _
  ring := by simp [family9, Links.Ring, Links.Joined]
  head := rfl
  family e := by
    by_cases h : e = 9
    · subst h
      simp [family9, Links.Ring, Links.Joined]
    · simp [family9, h, Links.Ring]
  apart e := by
    by_cases h : e = 9
    · subst h
      simp [family9]
    · simp [family9, h]
  apart' e e' ne := by
    by_cases h : e = 9 <;> by_cases h' : e' = 9
    · exact absurd (h.trans h'.symm) ne
    · simp [family9, h']
    · simp [family9, h]
    · simp [family9, h]
  used := by
    refine ⟨by simp [family9], fun e x hx => ?_⟩
    by_cases h : e = 9
    · subst h
      have : x = 5 ∨ x = 6 := by simpa [family9] using hx
      rcases this with rfl | rfl <;> rfl
    · simp [family9, h] at hx

theorem fork_waitStep (s : State) (w e : Nat) : (s.waitStep w e).fork = s.fork := by
  unfold State.waitStep
  split <;> first | rfl | (split <;> rfl)

/-- A fork that succeeds, with nobody inside. -/
theorem apart_forks (addr n : Nat) {s : State} (nobody : ∀ w, (s.wait w).inside = false)
    (noPop : ∀ new, s.fork ≠ .popTake new) :
    StepsMeet step Apart s (List.replicate n (.fork addr false)) := by
  induction n generalizing s with
  | zero => trivial
  | succ n ih =>
    refine ⟨?_, ih (fun w => ?_) fun new => ?_⟩
    · unfold Apart
      cases hf : s.fork with
      | check new => exact nobody
      | popTake new => exact absurd hf (noPop new)
      | _ => trivial
    · rw [show step s (.fork addr false) = s.forkStep addr false from rfl, wait_forkStep]
      exact nobody w
    · change (s.forkStep addr false).fork ≠ _
      unfold State.forkStep
      cases hf : s.fork with
      | popTake old => exact absurd hf (noPop old)
      | made old => simp
      | _ =>
        dsimp only
        repeat' split
        all_goals first | exact noPop new | simp

theorem apart_waits (w e n : Nat) {s : State} (outside : s.fork.inside = false) :
    StepsMeet step Apart s (List.replicate n (.wait w e)) := by
  induction n generalizing s with
  | zero => trivial
  | succ n ih =>
    refine ⟨fun _ => outside, ih ?_⟩
    change (s.waitStep w e).fork.inside = false
    rw [fork_waitStep]
    exact outside

/-- A fork of `init`, then the hand-over by thread 7. -/
theorem children_listed_in_turn :
    let is := List.replicate 7 (Input.fork 2 false) ++ List.replicate 9 (.wait 7 9)
    (run step family9 is).kids = [1, 2, 5, 6] ∧
      Along step (fun s => Quiet s → Formed s) family9 is := by
  refine ⟨by decide +kernel, children_listed start_family9 _ (StepsMeet.append ?_ ?_)⟩
  · exact apart_forks 2 7 (fun _ => rfl) fun _ h => ForkPc.noConfusion h
  · exact apart_waits 7 9 9 (by decide +kernel)

/-- Thread 7 hands the orphans over after the first of the four assignments of `PUSH_BACK`. -/
def overlap : List Input :=
  List.replicate 3 (.fork 2 false) ++ List.replicate 9 (.wait 7 9) ++ List.replicate 3 (.fork 2 false)

/-- The orphans 5 and 6 are in no list any more. -/
theorem orphans_lost :
    ¬ Along step (fun s => Quiet s → Formed s) family9 overlap := by
  intro along
  have last := along.last
  have quiet : Quiet (run step family9 overlap) := by
    refine ⟨by decide +kernel, fun w => ?_⟩
    by_cases h : w = 7
    · rw [h]
      decide +kernel
    · rw [wait_run (v := w) ?_]
      · rfl
      · intro e mem
        simp only [overlap, List.mem_append, List.mem_replicate, reduceCtorEq, and_false,
          Input.wait.injEq, h, false_and, or_self] at mem
  have head : (run step family9 overlap).head = some 1 := by decide +kernel
  have walk := (last quiet).walk head
  have : ¬ ((run step family9 overlap).links.walk 1 (run step family9 overlap).kids.length 1).Perm
      (run step family9 overlap).kids := by decide +kernel
  exact this walk

end OsKernel.Handover
