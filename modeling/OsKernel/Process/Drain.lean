/-
The list of terminated threads: the loop of `handle_wait` that frees its nodes
(`kern/system_call.c`, with `POP_FRONT` of `kern/inc/list.h`) and `alter_state` to
`TERMINATED_STATE` (`kern/ctrl_blk.c`).

`alter_state` runs with interrupts disabled and is one step. The loop runs with
interrupts enabled, so each test and each assignment of `POP_FRONT` is a step of its
own, and any thread that is not terminated may take the next one.

A node is named by the thread it was made for, and a name is not used again: a
pointer to a freed node stays one. The other lists are left out, as `alter_state`
has taken a node out of them before it writes the links that this list uses.
-/

import OsKernel.Lib.Ring
import OsKernel.Lib.Run

namespace OsKernel.Drain

open OsKernel.Run

/-- Where in the loop a thread stands, with `old_front` where it is set. -/
inductive Pc where
  | out
  /-- `while (thread_lists[TERMINATED_STATE])` -/
  | test
  | affirm
  | take
  /-- `(front) == (front)->next` -/
  | compare (old : Nat)
  /-- `(front) = NULL` -/
  | clear (old : Nat)
  /-- `(front) = (front)->next` -/
  | advance (old : Nat)
  /-- `old_front->previous->next = old_front->next` -/
  | unlinkNext (old : Nat)
  /-- `old_front->next->previous = old_front->previous` -/
  | unlinkPrevious (old : Nat)
  | free (old : Nat)
deriving DecidableEq

/-- Inside `POP_FRONT`: the loop condition was true and the node is not yet freed. -/
def Pc.inside : Pc → Bool
  | .out | .test => false
  | _ => true

structure State where
  links : Links Nat
  /-- `thread_lists[TERMINATED_STATE]` -/
  head : Option Nat
  terminated : Nat → Bool
  freed : Nat → Bool
  pc : Nat → Pc
  /-- How many threads were ever terminated. -/
  count : Nat

namespace State

def goto (s : State) (t : Nat) (pc : Pc) : State := { s with pc := Function.update s.pc t pc }

/-- The next step of thread `t` in the loop. Where `affirm` fails, or a null pointer
is followed, the kernel does not go on. -/
def drain (s : State) (t : Nat) : State :=
  match s.pc t with
  | .out => s.goto t .test
  | .test => if s.head = none then s.goto t .out else s.goto t .affirm
  | .affirm => if s.head = none then s else s.goto t .take
  | .take =>
      match s.head with
      | none => s
      | some front => s.goto t (.compare front)
  | .compare old =>
      match s.head with
      | none => s
      | some front =>
          if front = s.links.next front then s.goto t (.clear old) else s.goto t (.advance old)
  | .clear old => State.goto { s with head := none } t (.unlinkNext old)
  | .advance old =>
      match s.head with
      | none => s
      | some front => State.goto { s with head := some (s.links.next front) } t (.unlinkNext old)
  | .unlinkNext old =>
      State.goto { s with links := { s.links with
        next := Function.update s.links.next (s.links.previous old) (s.links.next old) } }
        t (.unlinkPrevious old)
  | .unlinkPrevious old =>
      State.goto { s with links := { s.links with
        previous := Function.update s.links.previous (s.links.next old) (s.links.previous old) } }
        t (.free old)
  | .free old => State.goto { s with freed := Function.update s.freed old true } t .test

/-- The nodes that a search of the list visits. -/
def visited (s : State) : List Nat :=
  match s.head with
  | none => []
  | some front => s.links.walk front s.count front

/-- `alter_state` of thread `x` to `TERMINATED_STATE`. A thread that is in another list
is appended. One that is terminated already (`handle_task_vanish` does not look) is
searched for in this list; `destination_node_ptr` is the head it had before. -/
def terminate (s : State) (x : Nat) : State :=
  if s.terminated x then
    match s.head with
    | none => s
    | some front =>
        if x ∈ s.visited then
          { s with
            head := if x = front then
                (if front = s.links.next front then none else some (s.links.next front))
              else some front
            links := (s.links.unlink x).place x front }
        else s
  else
    { s with terminated := Function.update s.terminated x true
             head := some (s.head.getD x)
             links := s.links.pushBack s.head x
             count := s.count + 1 }

end State

inductive Input where
  | drain (t : Nat)
  | terminate (x : Nat)
deriving DecidableEq

def step (s : State) : Input → State
  | .drain t => if s.terminated t then s else s.drain t
  | .terminate x => s.terminate x

/-- No thread is terminated and none is in the loop. -/
def boot : State where
  links := ⟨id, id⟩
  head := none
  terminated _ := false
  freed _ := false
  pc _ := .out
  count := 0

/-- The step does not apply `POP_FRONT` to an empty list, and every node it reads, writes
or frees was not freed before. -/
def Sound (s : State) : Input → Prop
  | .drain t => s.terminated t = false →
      match s.pc t with
      | .out | .test | .clear _ => True
      | .affirm | .take => s.head ≠ none
      | .compare _ | .advance _ => ∃ front, s.head = some front ∧ s.freed front = false
      | .unlinkNext old => s.freed old = false ∧ s.freed (s.links.previous old) = false
      | .unlinkPrevious old => s.freed old = false ∧ s.freed (s.links.next old) = false
      | .free old => s.freed old = false
  | .terminate x =>
      (∀ front, s.head = some front →
        s.freed front = false ∧ s.freed (s.links.previous front) = false) ∧
      (s.terminated x = true → (∀ y ∈ s.visited, s.freed y = false) ∧
        (x ∈ s.visited → s.freed (s.links.next x) = false ∧ s.freed (s.links.previous x) = false))

/-- No thread enters `POP_FRONT` while another is inside it, no thread is terminated
between the two assignments that take a node out of a list that is not empty, and none
that is terminated already is terminated again while a thread is inside. -/
def Apart (s : State) : Input → Prop
  | .drain t => s.terminated t = false → s.pc t = .test →
      ∀ u, u ≠ t → s.terminated u = false → (s.pc u).inside = false
  | .terminate x =>
      ∀ u, s.terminated u = false →
        (∀ old, s.pc u = .unlinkPrevious old → s.head = none) ∧
        (s.terminated x = true → (s.pc u).inside = false)

/-! ### The invariant -/

namespace State

/-- A node of this list, not freed. -/
def Good (s : State) (x : Nat) : Prop := s.terminated x = true ∧ s.freed x = false

/-- The links as they are once the second assignment is done. -/
def unlinked (s : State) (old : Nat) : Links Nat :=
  { s.links with
    previous := Function.update s.links.previous (s.links.next old) (s.links.previous old) }

/-- What holds of the list `l` while the thread inside `POP_FRONT` stands at `pc`. At
`unlinkNext` the node is in the list, but not at its head, or apart from it with its
neighbours: threads that were terminated after the comparison are lost with it. -/
def Fits (s : State) (l : List Nat) : Pc → Prop
  | .out | .test => s.links.Ring l
  | .affirm | .take => s.links.Ring l ∧ l ≠ []
  | .compare old | .clear old => s.links.Ring l ∧ l.head? = some old
  | .advance old => s.links.Ring l ∧ ∃ y rest, l = old :: y :: rest
  | .unlinkNext old => s.links.Ring l ∧ s.Good old ∧
      ((old ∈ l ∧ l.head? ≠ some old) ∨
        (old ∉ l ∧ s.links.previous old ∉ l ∧ s.links.next old ∉ l ∧
          s.Good (s.links.previous old) ∧ s.Good (s.links.next old)))
  | .unlinkPrevious old =>
      (s.unlinked old).Ring l ∧ s.Good old ∧ old ∉ l ∧ s.Good (s.links.next old)
  | .free old => s.links.Ring l ∧ s.Good old ∧ old ∉ l

/-- Nobody is inside, or one thread is, at `pc`. -/
def Inside (s : State) (pc : Pc) : Prop :=
  (pc = .out ∧ ∀ u, s.terminated u = false → (s.pc u).inside = false) ∨
    (pc.inside = true ∧ ∃ u, s.terminated u = false ∧ s.pc u = pc ∧
      ∀ v, s.terminated v = false → (s.pc v).inside = true → v = u)

end State

structure Holds (s : State) (l : List Nat) (pc : Pc) : Prop where
  known : ∀ x, s.freed x = true → s.terminated x = true
  good : ∀ x ∈ l, s.Good x
  head : s.head = l.head?
  length : l.length ≤ s.count
  fits : s.Fits l pc
  inside : s.Inside pc

def Inv (s : State) : Prop := ∃ l pc, Holds s l pc

theorem inv_boot : Inv boot :=
  ⟨[], .out, by simp [boot], by simp, rfl, Nat.le_refl _, trivial, Or.inl ⟨rfl, fun _ _ => rfl⟩⟩

namespace State

variable {s : State} {t : Nat} {l : List Nat} {pc : Pc}

/-- The thread inside is the one that is there. -/
theorem Inside.eq (h : s.Inside pc) (alive : s.terminated t = false)
    (inside : (s.pc t).inside = true) : pc = s.pc t ∧
      ∀ v, s.terminated v = false → (s.pc v).inside = true → v = t := by
  rcases h with ⟨-, none⟩ | ⟨-, u, -, hu, only⟩
  · rw [none t alive] at inside
    cases inside
  · have same := only t alive inside
    subst same
    exact ⟨hu.symm, only⟩

/-- The thread inside goes on. -/
theorem Inside.goto (alive : s.terminated t = false)
    (only : ∀ v, s.terminated v = false → (s.pc v).inside = true → v = t)
    (inside : pc.inside = true) : (s.goto t pc).Inside pc := by
  refine Or.inr ⟨inside, t, alive, by simp [State.goto], ?_⟩
  intro v aliveV hv
  by_contra ne
  rw [State.goto] at hv
  simp only [Function.update_of_ne ne] at hv
  exact ne (only v aliveV hv)

/-- The thread inside leaves, or a thread outside moves. -/
theorem Inside.leave (outside : pc.inside = false)
    (none : ∀ v, v ≠ t → s.terminated v = false → (s.pc v).inside = false) :
    (s.goto t pc).Inside .out := by
  refine Or.inl ⟨rfl, ?_⟩
  intro v aliveV
  by_cases ne : v = t
  · simp [State.goto, ne, outside]
  · simpa [State.goto, ne] using none v ne aliveV

theorem Fits.ring (h : s.Fits l pc) (ne : ∀ old, pc ≠ .unlinkPrevious old) : s.links.Ring l := by
  cases pc with
  | out | test => exact h
  | unlinkPrevious old => exact absurd rfl (ne old)
  | _ => exact h.1

end State

/-! ### The loop -/

namespace Holds

variable {s : State} {t old : Nat} {l : List Nat}

theorem test (h : Holds s l .out) (alive : s.terminated t = false)
    (nobody : ∀ v, v ≠ t → s.terminated v = false → (s.pc v).inside = false) :
    Inv (if s.head = none then s.goto t .out else s.goto t .affirm) := by
  split
  · exact ⟨l, .out, h.known, h.good, h.head, h.length, h.fits, State.Inside.leave rfl nobody⟩
  · rename_i some
    refine ⟨l, .affirm, h.known, h.good, h.head, h.length, ⟨h.fits, ?_⟩, State.Inside.goto alive ?_ rfl⟩
    · rintro rfl
      exact some h.head
    · intro v aliveV inside
      by_contra ne
      rw [nobody v ne aliveV] at inside
      cases inside

variable (alive : s.terminated t = false)
  (only : ∀ v, s.terminated v = false → (s.pc v).inside = true → v = t)

include alive only

theorem affirm (h : Holds s l .affirm) : Inv (if s.head = none then s else s.goto t .take) := by
  split
  · exact ⟨l, .affirm, h⟩
  · exact ⟨l, .take, h.known, h.good, h.head, h.length, h.fits, State.Inside.goto alive only rfl⟩

theorem take (h : Holds s l .take) {front : Nat} (hf : s.head = some front) :
    Holds (s.goto t (.compare front)) l (.compare front) :=
  ⟨h.known, h.good, h.head, h.length, ⟨h.fits.1, by rw [← h.head, hf]⟩, State.Inside.goto alive only rfl⟩

theorem compare (h : Holds s l (.compare old)) {front : Nat} (hf : s.head = some front) :
    Inv (if front = s.links.next front then s.goto t (.clear old) else s.goto t (.advance old)) := by
  obtain ⟨ring, first⟩ := h.fits
  have same : old = front := by
    rw [← h.head, hf] at first
    exact (Option.some.inj first).symm
  subst same
  split
  · exact ⟨l, .clear old, h.known, h.good, h.head, h.length, h.fits, State.Inside.goto alive only rfl⟩
  · rename_i more
    refine ⟨l, .advance old, h.known, h.good, h.head, h.length, ⟨ring, ?_⟩,
      State.Inside.goto alive only rfl⟩
    cases l with
    | nil => cases first
    | cons x rest =>
      cases Option.some.inj first
      cases rest with
      | nil => exact absurd (ring.next_head).symm more
      | cons y rest => exact ⟨y, rest, rfl⟩

/-- The head becomes `NULL`; what was appended after the comparison is lost. -/
theorem clear (h : Holds s l (.clear old)) :
    Holds (State.goto { s with head := none } t (.unlinkNext old)) [] (.unlinkNext old) := by
  obtain ⟨ring, first⟩ := h.fits
  have mem : old ∈ l := List.mem_of_head? first
  exact ⟨h.known, by simp, rfl, Nat.zero_le _, ⟨trivial, h.good old mem, Or.inr ⟨by simp, by simp, by simp,
    h.good _ (ring.previous_mem mem), h.good _ (ring.next_mem mem)⟩⟩,
    State.Inside.goto alive only rfl⟩

theorem advance (h : Holds s l (.advance old)) {front : Nat} (hf : s.head = some front) :
    Inv (State.goto { s with head := some (s.links.next front) } t (.unlinkNext old)) := by
  obtain ⟨ring, y, rest, rfl⟩ := h.fits
  have same : front = old := by
    rw [h.head] at hf
    exact (Option.some.inj hf).symm
  subst same
  have next : s.links.next front = y := ring.next_head
  have ne : y ≠ front := by
    rintro rfl
    exact (List.nodup_cons.mp ring.nodup).1 List.mem_cons_self
  refine ⟨y :: rest ++ [front], .unlinkNext front, h.known, ?_, ?_, ?_, ⟨?_, ?_, Or.inl ⟨?_, ?_⟩⟩,
    State.Inside.goto alive only rfl⟩
  · intro x hx
    refine h.good x ?_
    simp only [List.cons_append, List.mem_cons, List.mem_append, List.not_mem_nil, or_false] at hx ⊢
    tauto
  · simp [State.goto, next]
  · simpa [State.goto] using h.length
  · exact Links.Ring.rotate (l := [front]) ring
  · exact h.good front List.mem_cons_self
  · simp
  · simp [ne]

/-- The first of the two assignments. With the second one to come, the node is out. -/
theorem unlinkNext (h : Holds s l (.unlinkNext old)) :
    Inv (State.goto { s with links := { s.links with
      next := Function.update s.links.next (s.links.previous old) (s.links.next old) } }
      t (.unlinkPrevious old)) := by
  obtain ⟨ring, good, within | ⟨out, prev, next, goodPrev, goodNext⟩⟩ := h.fits
  · obtain ⟨mem, notFirst⟩ := within
    have ne : s.links.previous old ≠ old := by
      intro self
      have := ring.reverse.next_eq_self (x := old) (by simpa using mem)
      have single : l.reverse = [old] := this.mp self
      have : l = [old] := by simpa using congrArg List.reverse single
      rw [this] at notFirst
      exact notFirst rfl
    have out : old ∉ l.erase old := ring.nodup.not_mem_erase
    have first : (l.erase old).head? = l.head? := by rw [ring.head_erase mem, if_neg notFirst]
    refine ⟨l.erase old, .unlinkPrevious old, h.known, ?_, ?_, ?_, ⟨?_, good, out, ?_⟩,
      State.Inside.goto alive only rfl⟩
    · exact fun x hx => h.good x (List.mem_of_mem_erase hx)
    · exact h.head.trans first.symm
    · exact Nat.le_trans (List.length_erase_le ..) h.length
    · have : (State.unlinked (State.goto { s with links := { s.links with
          next := Function.update s.links.next (s.links.previous old) (s.links.next old) } }
          t (.unlinkPrevious old)) old) = s.links.unlink old := by
        simp [State.unlinked, State.goto, Links.unlink, ne.symm]
      rw [this]
      exact ring.erase mem
    · simp only [State.goto, Function.update_of_ne ne.symm]
      exact h.good _ (ring.next_mem mem)
  · have same : Function.update s.links.next (s.links.previous old) (s.links.next old) old =
        s.links.next old := by
      by_cases h : old = s.links.previous old
      · rw [← h, Function.update_self]
      · rw [Function.update_of_ne h]
    refine ⟨l, .unlinkPrevious old, h.known, h.good, h.head, h.length, ⟨?_, good, out, ?_⟩,
      State.Inside.goto alive only rfl⟩
    · refine ring.congr (fun x hx => ?_) fun x hx => ?_
      · have : x ≠ s.links.previous old := fun eq => prev (eq ▸ hx)
        simp [State.unlinked, State.goto, this]
      · have : x ≠ s.links.next old := fun eq => next (eq ▸ hx)
        simp [State.unlinked, State.goto, same, this]
    · simp only [State.goto, same]
      exact goodNext

theorem unlinkPrevious (h : Holds s l (.unlinkPrevious old)) :
    Holds (State.goto { s with links := { s.links with
      previous := Function.update s.links.previous (s.links.next old) (s.links.previous old) } }
      t (.free old)) l (.free old) := by
  obtain ⟨ring, good, out, -⟩ := h.fits
  exact ⟨h.known, h.good, h.head, h.length, ⟨ring, good, out⟩, State.Inside.goto alive only rfl⟩

omit alive in
theorem free (h : Holds s l (.free old)) :
    Holds (State.goto { s with freed := Function.update s.freed old true } t .test) l .out := by
  obtain ⟨ring, good, out⟩ := h.fits
  refine ⟨?_, ?_, h.head, h.length, ring, State.Inside.leave rfl ?_⟩
  · intro x freed
    by_cases eq : x = old
    · rw [eq]
      exact good.1
    · exact h.known x (by simpa [State.goto, eq] using freed)
  · intro x hx
    have ne : x ≠ old := by
      rintro rfl
      exact out hx
    exact ⟨(h.good x hx).1, by simpa [State.goto, ne] using (h.good x hx).2⟩
  · intro v ne aliveV
    by_contra inside
    exact ne (only v aliveV (by simpa using inside))

end Holds

theorem Inv.drain {s : State} {t : Nat} (inv : Inv s) (alive : s.terminated t = false)
    (apart : Apart s (.drain t)) : Inv (s.drain t) := by
  obtain ⟨l, pc, h⟩ := inv
  -- A thread outside moves without the thread inside, if there is one.
  by_cases inside : (s.pc t).inside = true
  · obtain ⟨same, only⟩ := h.inside.eq alive inside
    subst same
    unfold State.drain
    cases hpc : s.pc t with
    | out | test => simp [hpc, Pc.inside] at inside
    | affirm =>
      rw [hpc] at h
      exact h.affirm alive only
    | take =>
      rw [hpc] at h
      dsimp only
      split
      · exact ⟨l, .take, h⟩
      · rename_i front hf
        exact ⟨l, _, h.take alive only hf⟩
    | compare old =>
      rw [hpc] at h
      dsimp only
      split
      · exact ⟨l, _, h⟩
      · rename_i front hf
        exact h.compare alive only hf
    | clear old =>
      rw [hpc] at h
      exact ⟨[], _, h.clear alive only⟩
    | advance old =>
      rw [hpc] at h
      dsimp only
      split
      · exact ⟨l, _, h⟩
      · rename_i front hf
        exact h.advance alive only hf
    | unlinkNext old =>
      rw [hpc] at h
      exact h.unlinkNext alive only
    | unlinkPrevious old =>
      rw [hpc] at h
      exact ⟨l, _, h.unlinkPrevious alive only⟩
    | free old =>
      rw [hpc] at h
      exact ⟨l, _, h.free only⟩
  · unfold State.drain
    cases hpc : s.pc t with
    | out =>
      refine ⟨l, pc, h.known, h.good, h.head, h.length, h.fits, ?_⟩
      rcases h.inside with ⟨rfl, none⟩ | ⟨ins, u, aliveU, hu, only⟩
      · exact State.Inside.leave rfl fun v _ aliveV => none v aliveV
      · have ne : u ≠ t := by
          rintro rfl
          rw [hu] at inside
          exact inside ins
        refine Or.inr ⟨ins, u, aliveU, by simpa [State.goto, ne] using hu, ?_⟩
        intro v aliveV insV
        by_cases vt : v = t
        · simp [State.goto, vt, Pc.inside] at insV
        · exact only v aliveV (by simpa [State.goto, vt] using insV)
    | test =>
      have none := apart alive hpc
      have : pc = .out := by
        rcases h.inside with ⟨rfl, -⟩ | ⟨ins, u, aliveU, hu, -⟩
        · rfl
        · have ne : u ≠ t := by
            rintro rfl
            rw [hu] at inside
            exact absurd ins inside
          have := none u ne aliveU
          rw [hu, ins] at this
          cases this
      subst this
      exact h.test alive none
    | _ => simp [hpc, Pc.inside] at inside

/-! ### Terminating a thread -/

namespace Holds

variable {s : State} {x : Nat} {l : List Nat} {pc : Pc}

theorem not_mem (h : Holds s l pc) (fresh : s.terminated x = false) : x ∉ l := by
  intro mem
  rw [(h.good x mem).1] at fresh
  cases fresh

theorem visited (h : Holds s l pc) (ring : s.links.Ring l) : s.visited = l := by
  unfold State.visited
  rw [h.head]
  cases l with
  | nil => rfl
  | cons a l => exact ring.walk h.length

/-- A node apart from the list keeps its links when another is appended. -/
theorem pushBack_apart (ring : s.links.Ring l) {y : Nat} (ne : y ≠ x) (out : y ∉ l) :
    (s.links.pushBack l.head? x).next y = s.links.next y ∧
      (s.links.pushBack l.head? x).previous y = s.links.previous y := by
  cases l with
  | nil => simp [Links.pushBack, Links.single, ne]
  | cons a l =>
    have back : y ≠ s.links.previous a := by
      rintro rfl
      exact out (ring.previous_mem List.mem_cons_self)
    have front : y ≠ a := by
      rintro rfl
      exact out List.mem_cons_self
    simp [Links.pushBack, Links.insertBefore, ne, back, front]

/-- What the thread inside relies on stays so when a thread is appended. -/
theorem fits_append (h : Holds s l pc) (fresh : s.terminated x = false)
    (apart : ∀ old, pc = .unlinkPrevious old → s.head = none) :
    (s.terminate x).Fits (l ++ [x]) pc := by
  have out := h.not_mem fresh
  have eq : s.terminate x = { s with
      terminated := Function.update s.terminated x true
      head := some (s.head.getD x)
      links := s.links.pushBack l.head? x
      count := s.count + 1 } := by simp [State.terminate, fresh, h.head]
  have good : ∀ y, s.Good y → (s.terminate x).Good y := by
    rintro y ⟨term, live⟩
    have ne : y ≠ x := by
      rintro rfl
      rw [term] at fresh
      cases fresh
    rw [eq]
    exact ⟨by simpa [ne] using term, live⟩
  have ne : ∀ y, s.Good y → y ≠ x := by
    rintro y ⟨term, -⟩ rfl
    rw [term] at fresh
    cases fresh
  have pushed : ∀ ring : s.links.Ring l, (s.terminate x).links.Ring (l ++ [x]) := by
    intro ring
    rw [eq]
    exact ring.pushBack out
  have fits := h.fits
  cases pc with
  | out | test => exact pushed fits
  | affirm | take => exact ⟨pushed fits.1, by simp⟩
  | compare old | clear old =>
    refine ⟨pushed fits.1, ?_⟩
    rw [List.head?_append, fits.2]
    rfl
  | advance old =>
    obtain ⟨ring, y, rest, rfl⟩ := fits
    exact ⟨pushed ring, y, rest ++ [x], rfl⟩
  | unlinkNext old =>
    obtain ⟨ring, goodOld, within | ⟨outOld, prev, next, goodPrev, goodNext⟩⟩ := fits
    · refine ⟨pushed ring, good old goodOld, Or.inl ⟨List.mem_append_left _ within.1, ?_⟩⟩
      cases l with
      | nil => cases within.1
      | cons a l => exact within.2
    · obtain ⟨sameNext, samePrev⟩ := pushBack_apart (x := x) ring (ne old goodOld) outOld
      have hn : (s.terminate x).links.next old = s.links.next old := by rw [eq]; exact sameNext
      have hp : (s.terminate x).links.previous old = s.links.previous old := by
        rw [eq]
        exact samePrev
      refine ⟨pushed ring, good old goodOld, Or.inr ⟨?_, ?_, ?_, ?_, ?_⟩⟩
      · simp [outOld, ne old goodOld]
      · rw [hp]
        simp [prev, ne _ goodPrev]
      · rw [hn]
        simp [next, ne _ goodNext]
      · rw [hp]
        exact good _ goodPrev
      · rw [hn]
        exact good _ goodNext
  | unlinkPrevious old =>
    obtain ⟨-, goodOld, outOld, goodNext⟩ := fits
    have empty : l = [] := by
      have := apart old rfl
      rw [h.head] at this
      exact List.head?_eq_none_iff.mp this
    subst empty
    have neOld := ne old goodOld
    have neNext := ne _ goodNext
    have hn : (s.terminate x).links.next old = s.links.next old := by
      rw [eq]
      simp [Links.pushBack, Links.single, neOld]
    refine ⟨?_, good old goodOld, by simp [neOld], ?_⟩
    · refine (Links.ring_single s.links x).congr (fun y hy => ?_) fun y hy => ?_
      · rw [List.mem_singleton.mp hy, eq]
        rfl
      · rw [List.mem_singleton.mp hy]
        simp only [State.unlinked, hn, Function.update_of_ne neNext.symm]
        rw [eq]
        rfl
    · rw [hn]
      exact good _ goodNext
  | free old =>
    obtain ⟨ring, goodOld, outOld⟩ := fits
    exact ⟨pushed ring, good old goodOld, by simp [outOld, ne old goodOld]⟩

/-- A thread of another list is appended; it may be the one inside. -/
theorem append (h : Holds s l pc) (fresh : s.terminated x = false)
    (apart : ∀ u, s.terminated u = false → ∀ old, s.pc u = .unlinkPrevious old → s.head = none) :
    Inv (s.terminate x) := by
  have apart' : ∀ old, pc = .unlinkPrevious old → s.head = none := by
    rintro old rfl
    rcases h.inside with ⟨impossible, -⟩ | ⟨-, u, alive, hu, -⟩
    · cases impossible
    · exact apart u alive old hu
  have fits := h.fits_append fresh apart'
  have eq : s.terminate x = { s with
      terminated := Function.update s.terminated x true
      head := some (s.head.getD x)
      links := s.links.pushBack s.head x
      count := s.count + 1 } := by simp [State.terminate, fresh]
  have term : ∀ y, s.terminated y = true → (s.terminate x).terminated y = true := by
    intro y hy
    have ne : y ≠ x := by
      rintro rfl
      rw [hy] at fresh
      cases fresh
    rw [eq]
    simpa [ne] using hy
  have live : s.freed x = false := by
    by_contra freed
    rw [h.known x (by simpa using freed)] at fresh
    cases fresh
  have holds : ∀ pc', (s.terminate x).Fits (l ++ [x]) pc' → (s.terminate x).Inside pc' →
      Inv (s.terminate x) := by
    intro pc' fits' inside'
    refine ⟨l ++ [x], pc', ?_, ?_, ?_, ?_, fits', inside'⟩
    · intro y freed
      refine term y (h.known y ?_)
      rw [eq] at freed
      exact freed
    · intro y hy
      rcases List.mem_append.mp hy with old | new
      · exact ⟨term y (h.good y old).1, by rw [eq]; exact (h.good y old).2⟩
      · rw [List.mem_singleton.mp new, eq]
        exact ⟨by simp, live⟩
    · rw [eq, h.head]
      cases l <;> rfl
    · rw [eq]
      simpa using h.length
  have aliveOf : ∀ v, (s.terminate x).terminated v = false → v ≠ x ∧ s.terminated v = false := by
    intro v alive
    rw [eq] at alive
    by_cases ne : v = x
    · simp [ne] at alive
    · exact ⟨ne, by simpa [ne] using alive⟩
  have pcs : (s.terminate x).pc = s.pc := by rw [eq]
  rcases h.inside with ⟨rfl, none⟩ | ⟨ins, u, alive, hu, only⟩
  · refine holds .out fits (Or.inl ⟨rfl, fun v aliveV => ?_⟩)
    rw [pcs]
    exact none v (aliveOf v aliveV).2
  · by_cases dies : u = x
    · -- The thread inside ends where it stands, with the list in order.
      subst dies
      refine holds .out ?_ (Or.inl ⟨rfl, fun v aliveV => ?_⟩)
      · by_cases place : ∃ old, pc = .unlinkPrevious old
        · obtain ⟨old, rfl⟩ := place
          have empty := apart' old rfl
          rw [h.head, List.head?_eq_none_iff] at empty
          subst empty
          rw [eq, h.head]
          exact Links.ring_single s.links u
        · exact fits.ring fun old h => place ⟨old, h⟩
      · rw [pcs]
        obtain ⟨ne, aliveV⟩ := aliveOf v aliveV
        by_contra inside
        exact ne (only v aliveV (by simpa using inside))
    · refine holds pc fits (Or.inr ⟨ins, u, ?_, by rw [pcs]; exact hu, fun v aliveV insV => ?_⟩)
      · rw [eq]
        simpa [dies] using alive
      · rw [pcs] at insV
        exact only v (aliveOf v aliveV).2 insV

/-- A thread that is in the list already is moved to its end, or lost if it was the head. -/
theorem move (h : Holds s l .out) (listed : s.terminated x = true) : Inv (s.terminate x) := by
  have ring : s.links.Ring l := h.fits
  have seen := h.visited ring
  have head := h.head
  unfold State.terminate
  rw [if_pos listed, seen]
  cases l with
  | nil =>
    rw [show s.head = none from head]
    exact ⟨[], .out, h⟩
  | cons front l =>
    rw [show s.head = some front from head]
    dsimp only
    split
    swap
    · exact ⟨front :: l, .out, h⟩
    rename_i mem
    have inside := h.inside
    by_cases first : x = front
    · subst first
      rw [if_pos rfl, Links.place_self]
      have out : x ∉ l := (List.nodup_cons.mp ring.nodup).1
      refine ⟨l, .out, h.known, fun y hy => h.good y (List.mem_cons_of_mem _ hy), ?_, ?_, ?_,
        inside⟩
      · cases l with
        | nil =>
          have next : s.links.next x = x := ring.next_head
          simp [next]
        | cons y l =>
          have next : s.links.next x = y := ring.next_head
          have ne : x ≠ y := by
            rintro rfl
            exact out List.mem_cons_self
          simp [next, ne]
      · exact Nat.le_of_succ_le h.length
      · exact ring.unlink.of_single out
    · rw [if_neg first, Links.place_of_ne _ first]
      have mem' : x ∈ l := by simpa [first] using mem
      have ne : front ≠ x := fun eq => first eq.symm
      have erase : (front :: l).erase x = front :: l.erase x := List.erase_cons_tail (by simpa using ne)
      have ring' := ring.erase mem
      rw [erase] at ring'
      have out : x ∉ front :: l.erase x := by
        rw [← erase]
        exact ring.nodup.not_mem_erase
      refine ⟨front :: l.erase x ++ [x], .out, h.known, ?_, rfl, ?_, ring'.insertBefore out, inside⟩
      · intro y hy
        rcases List.mem_append.mp hy with hy | hy
        · rw [← erase] at hy
          exact h.good y (List.mem_of_mem_erase hy)
        · rw [List.mem_singleton.mp hy]
          exact h.good x mem
      · have := List.length_erase_of_mem mem'
        have := h.length
        have := List.length_pos_of_mem mem'
        simp only [List.length_cons, List.length_append, List.length_nil] at *
        omega

end Holds

theorem Inv.terminate {s : State} {x : Nat} (inv : Inv s) (apart : Apart s (.terminate x)) :
    Inv (s.terminate x) := by
  obtain ⟨l, pc, h⟩ := inv
  by_cases listed : s.terminated x = true
  · have : pc = .out := by
      rcases h.inside with ⟨rfl, -⟩ | ⟨ins, u, alive, hu, -⟩
      · rfl
      · have := (apart u alive).2 listed
        rw [hu, ins] at this
        cases this
    subst this
    exact h.move listed
  · exact h.append (by simpa using listed) fun u alive => (apart u alive).1

theorem Inv.step {s : State} {i : Input} (inv : Inv s) (apart : Apart s i) : Inv (step s i) := by
  cases i with
  | drain t =>
    unfold Drain.step
    dsimp only
    split
    · exact inv
    · rename_i alive
      exact inv.drain (by simpa using alive) apart
  | terminate x => exact inv.terminate apart

/-! ### Frees -/

theorem sound_of_inv {s : State} {i : Input} (inv : Inv s) (apart : Apart s i) : Sound s i := by
  obtain ⟨l, pc, h⟩ := inv
  cases i with
  | drain t =>
    intro alive
    cases hpc : s.pc t with
    | out | test | clear => trivial
    | affirm | take =>
      have fits := h.fits
      rw [(h.inside.eq alive (by simp [hpc, Pc.inside])).1, hpc] at fits
      dsimp only
      rw [h.head]
      exact fun empty => fits.2 (List.head?_eq_none_iff.mp empty)
    | compare old =>
      have fits := h.fits
      rw [(h.inside.eq alive (by simp [hpc, Pc.inside])).1, hpc] at fits
      exact ⟨old, h.head.trans fits.2, (h.good old (List.mem_of_head? fits.2)).2⟩
    | advance old =>
      have fits := h.fits
      rw [(h.inside.eq alive (by simp [hpc, Pc.inside])).1, hpc] at fits
      obtain ⟨-, y, rest, rfl⟩ := fits
      exact ⟨old, h.head, (h.good old List.mem_cons_self).2⟩
    | unlinkNext old =>
      have fits := h.fits
      rw [(h.inside.eq alive (by simp [hpc, Pc.inside])).1, hpc] at fits
      obtain ⟨ring, good, within | ⟨-, -, -, goodPrev, -⟩⟩ := fits
      · exact ⟨good.2, (h.good _ (ring.previous_mem within.1)).2⟩
      · exact ⟨good.2, goodPrev.2⟩
    | unlinkPrevious old =>
      have fits := h.fits
      rw [(h.inside.eq alive (by simp [hpc, Pc.inside])).1, hpc] at fits
      exact ⟨fits.2.1.2, fits.2.2.2.2⟩
    | free old =>
      have fits := h.fits
      rw [(h.inside.eq alive (by simp [hpc, Pc.inside])).1, hpc] at fits
      exact fits.2.1.2
  | terminate x =>
    have ring : s.head = none ∨ s.links.Ring l := by
      by_cases place : ∃ old, pc = .unlinkPrevious old
      · obtain ⟨old, rfl⟩ := place
        rcases h.inside with ⟨impossible, -⟩ | ⟨-, u, alive, hu, -⟩
        · cases impossible
        · exact Or.inl ((apart u alive).1 old hu)
      · exact Or.inr (h.fits.ring fun old eq => place ⟨old, eq⟩)
    rcases ring with empty | ring
    · refine ⟨fun front hf => ?_, fun _ => ?_⟩
      · rw [empty] at hf
        cases hf
      · simp [State.visited, empty]
    · unfold Sound
      rw [Holds.visited h ring]
      refine ⟨fun front hf => ?_, fun _ => ⟨fun y hy => (h.good y hy).2, fun hx => ?_⟩⟩
      · have mem : front ∈ l := List.mem_of_head? (h.head.symm.trans hf)
        exact ⟨(h.good _ mem).2, (h.good _ (ring.previous_mem mem)).2⟩
      · exact ⟨(h.good _ (ring.next_mem hx)).2, (h.good _ (ring.previous_mem hx)).2⟩

/-- In a run that keeps the uses of the list apart, no node is freed twice or used after
it was freed, and `POP_FRONT` always has a node. -/
theorem frees_once (is : List Input) (apart : StepsMeet step Apart boot is) :
    StepsMeet step Sound boot is :=
  stepsMeet_of_stepsMeet (I := Inv) (fun _ _ => sound_of_inv) (fun _ _ => Inv.step) inv_boot apart

/-- A thread that drains the list alone is not disturbed. -/
theorem apart_replicate {s : State} {t : Nat} (alone : ∀ u, u ≠ t → s.pc u = .out) (n : Nat) :
    StepsMeet step Apart s (List.replicate n (.drain t)) := by
  induction n generalizing s with
  | zero => trivial
  | succ n ih =>
    refine ⟨fun _ _ u ne _ => by rw [alone u ne]; rfl, ih fun u ne => ?_⟩
    have other : ∀ (s' : State) (pc : Pc), s'.pc = s.pc → (s'.goto t pc).pc u = .out := by
      intro s' pc same
      simp [State.goto, ne, same, alone u ne]
    simp only [step]
    split
    · exact alone u ne
    · unfold State.drain
      repeat' split
      all_goals first | exact alone u ne | exact other _ _ rfl

/-- Two threads exit and a third one frees their nodes. -/
theorem frees_once_two_exits :
    let is := [.terminate 10, .terminate 11] ++ List.replicate 20 (.drain 1)
    ((run step boot is).freed 10 = true ∧ (run step boot is).freed 11 = true) ∧
      StepsMeet step Sound boot is := by
  refine ⟨by decide +kernel, frees_once _ ?_⟩
  refine ⟨fun u _ => ⟨fun old h => ?_, fun _ => rfl⟩, fun u _ => ⟨fun old h => ?_, fun _ => rfl⟩, ?_⟩
  · cases h
  · cases h
  · exact apart_replicate (fun _ _ => rfl) 20

/-- Thread 1 stands before the two assignments for node 10 while thread 2 frees both
nodes. -/
def twoDrains : List Input :=
  [.terminate 10, .terminate 11] ++ List.replicate 6 (.drain 1) ++ List.replicate 18 (.drain 2) ++
    List.replicate 2 (.drain 1)

/-- Thread 1 then frees node 10 again. -/
theorem freed_twice :
    ¬ StepsMeet step Sound boot (twoDrains ++ [.drain 1]) ∧
      (run step boot twoDrains).pc 1 = .free 10 ∧ (run step boot twoDrains).freed 10 = true := by
  have place : (run step boot twoDrains).pc 1 = .free 10 ∧
      (run step boot twoDrains).freed 10 = true ∧
      (run step boot twoDrains).terminated 1 = false := by decide +kernel
  refine ⟨fun sound => ?_, place.1, place.2.1⟩
  have last := StepsMeet.at twoDrains [] sound place.2.2
  simp only [place.1, place.2.1] at last
  cases last

end OsKernel.Drain
