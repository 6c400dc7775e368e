/-
Every handler gives back the mutexes that it takes, takes them in their order, and ends
its thread only where it holds none.

`Calm` is said of the mutexes held where user memory is touched or a page directory is
edited. The allocators come first, then page directories, faults, control blocks and calls,
as in `Handlers`; `program_meets` is the result about a whole call.
-/

import OsKernel.Locks.Rules

namespace OsKernel.Locks

open Mutex

variable {order tidy : Prop} {t p c : Nat} {m : Mutex} {H : List Mutex} {F : State → Prop}
variable {α β : Type}

/-! ### Pieces -/

namespace Keeps

theorem bind {code : Code α} {next : α → Code β} (first : Keeps order tidy t p H F code)
    (then_ : ∀ x, Keeps order tidy t p H F (next x)) : Keeps order tidy t p H F (code >>= next) :=
  Meets.bind first then_

theorem pure (x : α) : Keeps order tidy t p H F (Pure.pure x : Code α) :=
  Meets.pure fun _ _ h => h

theorem ite {b : Prop} [Decidable b] {yes no : Code α} (left : Keeps order tidy t p H F yes)
    (right : Keeps order tidy t p H F no) : Keeps order tidy t p H F (if b then yes else no) :=
  Meets.ite (fun _ => left) fun _ => right

/-- A choice by a test. -/
theorem test {yes no : Code α} (fact : Fact t p H F) (left : Keeps order tidy t p H F yes)
    (right : Keeps order tidy t p H F no) :
    Keeps order tidy t p H F (do if ← Locks.test then yes else no) :=
  (keeps_test fact).bind fun _ => left.ite right

/-- A choice by the result of a piece. -/
theorem branch {cond : Code Bool} {yes no : Code α} (first : Keeps order tidy t p H F cond)
    (left : Keeps order tidy t p H F yes) (right : Keeps order tidy t p H F no) :
    Keeps order tidy t p H F (do if ← cond then yes else no) :=
  first.bind fun _ => left.ite right

theorem rounds {body : Code Unit} (keeps : Keeps order tidy t p H F body) (n : Nat) :
    Keeps order tidy t p H F (Locks.rounds body n) := by
  induction n with
  | zero => exact pure ()
  | succ n ih => exact keeps.bind fun _ => ih

theorem loop {body : Code Unit} (fact : Fact t p H F) (keeps : Keeps order tidy t p H F body) :
    Keeps order tidy t p H F (Locks.loop body) :=
  (keeps_ask fact).bind keeps.rounds

/-- A region of a mutex, followed by more. -/
theorem region {body : Code α} {next : α → Code β} (fact : Fact t p H F) (waited : m ≠ inputLock)
    (own : ∀ q, m = pcb q → q = p) (below : order → ∀ m' ∈ H, m' ∈ allowed p m)
    (inside : Keeps order tidy t p (m :: H) F body) (then_ : ∀ x, Keeps order tidy t p H F (next x)) :
    Keeps order tidy t p H F (do
      mutexLock m
      let x ← body
      mutexUnlock m
      next x) :=
  meets_lock_plain fact waited own below fun new =>
    Meets.bind inside fun x => Meets.bind (meets_unlock (fact.cons m) new) fun _ => then_ x

/-- A region of a mutex at the end of a piece. -/
theorem regionLast {body : Code Unit} (fact : Fact t p H F) (waited : m ≠ inputLock)
    (own : ∀ q, m = pcb q → q = p) (below : order → ∀ m' ∈ H, m' ∈ allowed p m)
    (inside : Keeps order tidy t p (m :: H) F body) :
    Keeps order tidy t p H F (do
      mutexLock m
      body
      mutexUnlock m) :=
  meets_lock_plain fact waited own below fun new =>
    Meets.bind inside fun _ => meets_unlock (fact.cons m) new

/-- A region with nothing in it. -/
theorem regionEmpty (fact : Fact t p H F) (waited : m ≠ inputLock) (own : ∀ q, m = pcb q → q = p)
    (below : order → ∀ m' ∈ H, m' ∈ allowed p m) :
    Keeps order tidy t p H F (do
      mutexLock m
      mutexUnlock m) :=
  meets_lock_plain fact waited own below (meets_unlock (fact.cons m))

end Keeps

/-! ### Allocators -/

/-- The mutexes held where an allocator is called. -/
def Low (p : Nat) (H : List Mutex) : Prop := ∀ m ∈ H, m ∈ allowed p memAllocationLock

/-- The mutexes held where a page directory is edited or user memory is touched. -/
def Calm (p : Nat) (H : List Mutex) : Prop := ∀ m ∈ H, m ∈ allowed p vmLock

theorem Calm.low (calm : Calm p H) : Low p H := by
  intro m mem
  have below := calm m mem
  simp only [allowed, List.mem_cons, List.not_mem_nil, or_false] at below ⊢
  tauto

theorem Calm.vm (calm : Calm p H) : Low p (vmLock :: H) := by
  intro m mem
  rcases List.mem_cons.mp mem with rfl | mem
  · simp [allowed]
  · exact calm.low m mem

theorem keeps_malloc (fact : Fact t p H F) (low : Low p H) : Keeps order tidy t p H F malloc :=
  Keeps.region fact (by simp) (by simp) (fun _ => low) (keeps_test (fact.cons _)) Keeps.pure

theorem keeps_free (fact : Fact t p H F) (low : Low p H) : Keeps order tidy t p H F free :=
  Keeps.regionEmpty fact (by simp) (by simp) fun _ => low

theorem keeps_allocFrame (fact : Fact t p H F) (calm : Calm p H) :
    Keeps order tidy t p H F allocFrame := by
  refine meets_lock_plain fact (by simp) (by simp) (fun _ => calm) fun new => ?_
  have inside : Fact t p (vmLock :: H) F := fact.cons _
  refine Meets.bind (keeps_test inside) fun success => Meets.bind ?_ fun _ =>
    Meets.bind (meets_unlock inside new) fun _ => Keeps.pure success
  exact (keeps_free inside calm.vm).ite (Keeps.pure ())

theorem keeps_insertFrame (fact : Fact t p H F) (low : Low p H) :
    Keeps order tidy t p H F insertFrame :=
  Keeps.test fact (keeps_malloc fact low) (Keeps.pure true)

theorem keeps_freeFrame (fact : Fact t p H F) (calm : Calm p H) :
    Keeps order tidy t p H F freeFrame :=
  Keeps.test fact
    (Keeps.region fact (by simp) (by simp) (fun _ => calm)
      (keeps_insertFrame (fact.cons _) calm.vm) Keeps.pure)
    (Keeps.pure true)

/-! ### Page directories -/

theorem keeps_pageTable (fact : Fact t p H F) (low : Low p H) :
    Keeps order tidy t p H F pageTable :=
  Keeps.test fact (keeps_malloc fact low) (keeps_test fact)

theorem keeps_mapNewFrame (fact : Fact t p H F) (calm : Calm p H) :
    Keeps order tidy t p H F mapNewFrame :=
  (keeps_pageTable fact calm.low).branch (keeps_allocFrame fact calm) (Keeps.pure false)

theorem keeps_setAvailability (fact : Fact t p H F) (calm : Calm p H) :
    Keeps order tidy t p H F setAvailability :=
  keeps_pageTable fact calm.low

theorem keeps_mapZeroFrame (fact : Fact t p H F) (calm : Calm p H) :
    Keeps order tidy t p H F mapZeroFrame :=
  keeps_pageTable fact calm.low

theorem keeps_unmapFrame (fact : Fact t p H F) (calm : Calm p H) :
    Keeps order tidy t p H F unmapFrame :=
  Keeps.test fact ((keeps_freeFrame fact calm).bind fun _ => Keeps.pure true) (Keeps.pure false)

theorem keeps_pageTables (fact : Fact t p H F) (low : Low p H) (n : Nat) :
    Keeps order tidy t p H F (pageTables n) := by
  induction n with
  | zero => exact Keeps.pure true
  | succ n ih =>
      have undo : Keeps order tidy t p H F (loop sfree) := Keeps.loop fact (keeps_free fact low)
      refine (keeps_malloc fact low).branch ih ?_
      exact undo.bind fun _ => (keeps_free fact low).bind fun _ => Keeps.pure false

theorem keeps_constructPageDir (fact : Fact t p H F) (low : Low p H) :
    Keeps order tidy t p H F constructPageDir :=
  (keeps_malloc fact low).branch ((keeps_ask fact).bind (keeps_pageTables fact low)) (Keeps.pure false)

theorem keeps_destructPageDir (fact : Fact t p H F) (calm : Calm p H) :
    Keeps order tidy t p H F destructPageDir := by
  have page : Keeps order tidy t p H F freePage :=
    (keeps_freeFrame fact calm).bind fun _ => Keeps.pure ()
  have free : Keeps order tidy t p H F free := keeps_free fact calm.low
  exact (Keeps.loop fact ((Keeps.loop fact page).bind fun _ => free)).bind fun _ => free

/-! ### Faults -/

theorem keeps_aliveCount (fact : Fact t p H F) (q : Nat) : Keeps order tidy t p H F (aliveCount q) :=
  (meets_aliveCount fact q).conseq (fun _ _ h => h) fun _ _ h => ⟨h.proc, h.holds, h.idle, h.fact.1⟩

theorem keeps_onlyIf {body : Code Unit} (b : Bool) (keeps : Keeps order tidy t p H F body) :
    Keeps order tidy t p H F (onlyIf b body) :=
  keeps.ite (Keeps.pure ())

section
variable {Q : Unit → State → Prop}

/-- `handle_vanish` takes the lock of the PCB, and in the tidy system it holds nothing when
it ends the thread. -/
theorem meets_handleVanish (below : order → ∀ m ∈ H, m ∈ allowed p (pcb p)) (none : tidy → H = []) :
    Meets order tidy t (At t p H fun _ => True) handleVanish Q := by
  refine meets_self fact_true fun _ => meets_lock_plain fact_true (by simp) (by simp) below fun new => ?_
  refine Meets.bind (keeps_aliveCount fact_true p) fun _ => ?_
  exact Meets.bind (meets_unlock fact_true new) fun _ => meets_terminate fact_true none

/-- What may be held where a fault is about to kill a thread. -/
def Fatal (order : Prop) (p : Nat) (H : List Mutex) : Prop :=
  order → ∀ m ∈ H, m ∈ allowed p (pcb p)

theorem meets_faultKillThread (below : Fatal order p H) :
    Meets order tidy t (At t p H fun _ => True) faultKillThread Q := by
  refine meets_fatal (fun _ => fact_true) fun H' fewer none => ?_
  have below' : Fatal order p H' := fun on m mem => below on m (fewer m mem)
  refine meets_self fact_true fun _ => meets_lock_plain fact_true (by simp) (by simp) below' fun new => ?_
  refine Meets.bind (keeps_aliveCount fact_true p) fun _ => ?_
  exact Meets.bind (meets_unlock fact_true new) fun _ => meets_handleVanish below' none

end

theorem keeps_repair (fact : Fact t p H F) (calm : Calm p H) : Keeps order tidy t p H F repair := by
  have zero : Keeps order tidy t p H F mapZeroFrame := keeps_mapZeroFrame fact calm
  have new : Keeps order tidy t p H F mapNewFrame := keeps_mapNewFrame fact calm
  refine Keeps.test fact (Keeps.test fact zero new) ?_
  exact Keeps.test fact ((keeps_unmapFrame fact calm).branch new (Keeps.pure false)) (Keeps.pure false)

theorem Calm.withPcb (calm : Calm p H) : Calm p (pcb p :: H) := by
  intro m mem
  rcases List.mem_cons.mp mem with rfl | mem
  · simp [allowed]
  · exact calm m mem

/-- Without the lock of the PCB, what is held is what a thread may hold that asks for it. -/
theorem Calm.fatal (calm : Calm p H) (free : order → pcb p ∉ H) : Fatal order p H := by
  intro on m mem
  have below := calm m mem
  simp only [allowed, List.mem_cons, List.not_mem_nil, or_false] at below ⊢
  rcases below with same | same | rfl
  · exact .inl same
  · exact .inr same
  · exact absurd mem (free on)

theorem keeps_handlePageFault (calm : Calm p H) (below : Fatal order p H) :
    Keeps order tidy t p H (fun _ => True) handlePageFault := by
  refine meets_self fact_true fun _ => ?_
  refine Keeps.region fact_true (by simp) (by simp) below (keeps_repair fact_true calm.withPcb) fun _ => ?_
  exact (Keeps.pure ()).ite (meets_faultKillThread below)

section
variable (mode : order ∨ tidy)
include mode

theorem keeps_handleKernelFault (calm : Calm p H) (below : Fatal order p H) :
    Keeps order tidy t p H (fun _ => True) handleKernelFault := by
  refine Keeps.test fact_true ?_ ?_
  · refine meets_fatal (fun _ => fact_true) fun H' fewer none => ?_
    exact meets_handleVanish (fun on m mem => below on m (fewer m mem)) none
  · exact Keeps.test fact_true (meets_deliver fact_true mode) (keeps_handlePageFault calm below)

theorem keeps_touchOnce (calm : Calm p H) : Keeps order tidy t p H (fun _ => True) touchOnce := by
  refine Meets.bind (meets_access fact_true) fun faults => Meets.known fun free => ?_
  refine Meets.ite (fun fault => ?_) fun _ => Keeps.pure ()
  exact keeps_handleKernelFault mode calm (calm.fatal fun on => free on fault)

theorem keeps_touch (calm : Calm p H) : Keeps order tidy t p H (fun _ => True) touch :=
  Keeps.loop fact_true (keeps_touchOnce mode calm)

theorem keeps_handleFault : Keeps order tidy t p [] (fun _ => True) handleFault := by
  refine Keeps.test fact_true (meets_deliver fact_true mode) (Keeps.test fact_true ?_ ?_)
  · exact keeps_handlePageFault (by simp [Calm]) (by simp [Fatal])
  · exact meets_faultKillThread (by simp [Fatal])

end

/-! ### Control blocks -/

theorem low_nil : Low p [] := by simp [Low]

theorem calm_nil : Calm p [] := by simp [Calm]

theorem calm_pcb : Calm p [pcb p] := calm_nil.withPcb

theorem keeps_newTid (fact : Fact t p H F) (below : ∀ m ∈ H, m = pcb p) :
    Keeps order tidy t p H F newTid :=
  Keeps.regionEmpty fact (by simp) (by simp) fun _ m mem => by simp [allowed, below m mem]

theorem keeps_threadForkCtrlBlk :
    Keeps order tidy t p [pcb p] (fun _ => True) (threadForkCtrlBlk p) := by
  have malloc : Keeps order tidy t p [pcb p] (fun _ => True) malloc :=
    keeps_malloc fact_true calm_pcb.low
  refine malloc.branch ?_ (Keeps.pure ())
  refine (keeps_newTid fact_true (by simp)).bind fun _ => malloc.branch ?_ ?_
  · exact meets_ready fact_true fun s proc _ => .inl proc.symm
  · exact keeps_free fact_true calm_pcb.low

theorem keeps_copyPage (fact : Fact t p H F) (calm : Calm p H) : Keeps order tidy t p H F copyPage := by
  have available : Keeps order tidy t p H F setAvailability := keeps_setAvailability fact calm
  refine Keeps.test fact available (available.branch ?_ (Keeps.pure false))
  exact Keeps.test fact (keeps_mapZeroFrame fact calm) (keeps_mapNewFrame fact calm)

theorem keeps_copyPages (fact : Fact t p H F) (calm : Calm p H) (n : Nat) :
    Keeps order tidy t p H F (copyPages n) := by
  induction n with
  | zero => exact Keeps.pure true
  | succ n ih => exact (keeps_copyPage fact calm).branch ih (Keeps.pure false)

theorem keeps_copyAllocations (fact : Fact t p H F) (low : Low p H) (n : Nat) :
    Keeps order tidy t p H F (copyAllocations n) := by
  induction n with
  | zero => exact Keeps.pure true
  | succ n ih => exact (keeps_malloc fact low).branch ih (Keeps.pure false)

/-- What `fork` knows throughout, and what is left of it at the end. -/
theorem At.alone {s : State} (h : At t p [] (Child t p c) s) : At t p [] (·.Alone t) s :=
  ⟨h.proc, h.holds, h.idle, h.fact.1⟩

theorem At.any {s : State} (h : At t p H F s) : At t p H (fun _ => True) s :=
  ⟨h.proc, h.holds, h.idle, trivial⟩

/-- A piece of `fork_ctrl_blk`: it starts with what is known of the new child. -/
def Forks (order tidy : Prop) (t p : Nat) (F : State → Prop) (code : Code α) : Prop :=
  Meets order tidy t (At t p [] F) code fun _ => At t p [] fun _ => True

theorem forks_undoFork : Forks order tidy t p (Child t p c) (undoFork p) := by
  have frees : Keeps order tidy t p [] (·.Alone t) (loop free) :=
    Keeps.loop fact_alone (keeps_free fact_alone low_nil)
  have undo : Keeps order tidy t p [] (·.Alone t) (undoFork p) :=
    frees.bind fun _ => Keeps.bind meets_popBack fun _ =>
      (keeps_free fact_alone low_nil).bind fun _ => frees.bind fun _ =>
        keeps_destructPageDir fact_alone calm_nil
  exact undo.conseq (fun _ _ => At.alone) fun _ _ => At.any

theorem forks_copyTcb : Forks order tidy t p (Child t p c) (copyTcb p c) := by
  have malloc : Keeps order tidy t p [] (Child t p c) malloc := keeps_malloc fact_child low_nil
  refine Meets.bind malloc fun _ => Meets.ite (fun _ => ?_) fun _ => forks_undoFork
  refine Meets.bind (keeps_newTid fact_child (by simp)) fun _ => ?_
  refine Meets.bind malloc fun _ => Meets.ite (fun _ => ?_) fun _ => forks_undoFork
  refine meets_ready fact_child fun s proc child => .inr ?_
  rw [proc]
  exact ⟨child.2.1, child.1, child.2.2⟩

theorem forks_copyPcb : Forks order tidy t p (·.Alone t) (copyPcb p) := by
  refine Meets.bind meets_pushBack fun child => Meets.bind (keeps_ask fact_child) fun n => ?_
  refine Meets.bind (keeps_copyPages fact_child calm_nil n) fun _ =>
    Meets.ite (fun _ => ?_) fun _ => forks_undoFork
  refine Meets.bind (keeps_free fact_child low_nil) fun _ => Meets.bind (keeps_ask fact_child) fun n => ?_
  refine Meets.bind (keeps_copyAllocations fact_child low_nil n) fun _ =>
    Meets.ite (fun _ => ?_) fun _ => forks_undoFork
  exact forks_copyTcb

theorem forks_of_keeps {code : Code α} (keeps : Keeps order tidy t p [] F code) :
    Forks order tidy t p F code :=
  keeps.conseq (fun _ _ h => h) fun _ _ => At.any

theorem forks_forkCtrlBlk : Forks order tidy t p (·.Alone t) (forkCtrlBlk p) := by
  have malloc : Keeps order tidy t p [] (·.Alone t) malloc := keeps_malloc fact_alone low_nil
  have destruct : Keeps order tidy t p [] (·.Alone t) destructPageDir :=
    keeps_destructPageDir fact_alone calm_nil
  refine Meets.bind (keeps_constructPageDir fact_alone low_nil) fun _ =>
    Meets.ite (fun _ => ?_) fun _ => forks_of_keeps (Keeps.pure ())
  refine Meets.bind malloc fun _ => Meets.ite (fun _ => ?_) fun _ => forks_of_keeps destruct
  refine Meets.bind malloc fun _ => Meets.ite (fun _ => forks_copyPcb) fun _ => ?_
  exact forks_of_keeps ((keeps_free fact_alone low_nil).bind fun _ => destruct)

/-! ### Children -/

/-- The mutexes held in a scan: the lock of the PCB, and those of the children locked so far. -/
def scanned (p : Nat) (locked : List Nat) : List Mutex := locked.map pcb ++ [pcb p]

theorem mem_scanned {locked : List Nat} : m ∈ scanned p locked ↔ m = pcb p ∨ ∃ q ∈ locked, m = pcb q := by
  rw [scanned, List.mem_append, List.mem_singleton, List.mem_map, or_comm]
  simp only [eq_comm]

theorem pcb_mem_scanned {q : Nat} {locked : List Nat} : pcb q ∈ scanned p locked ↔ q = p ∨ q ∈ locked := by
  simp [mem_scanned]

theorem own_mem_scanned {locked : List Nat} : pcb p ∈ scanned p locked := pcb_mem_scanned.mpr (.inl rfl)

theorem scanned_append {locked : List Nat} (m : Mutex) :
    m ∈ pcb c :: scanned p locked ↔ m ∈ scanned p (locked ++ [c]) := by
  rw [List.mem_cons, mem_scanned, mem_scanned]
  simp only [List.mem_append, List.mem_singleton, or_and_right, exists_or, exists_eq_left]
  exact or_left_comm.trans (or_congr_right or_comm)

/-- What is known while the children of `p`, which are `all`, are scanned. -/
def Scans (t p : Nat) (all locked : List Nat) (F : State → Prop) : State → Prop :=
  At t p (scanned p locked) fun s => s.children p = all ∧ F s

/-- What `find_exited_child` leaves: the locks of the children up to the one found. -/
def Found (t p : Nat) (all : List Nat) : Option Nat → State → Prop
  | none => Scans t p all all fun _ => True
  | some c => fun s => ∃ front back, all = front ++ c :: back ∧
      Scans t p all (front ++ [c]) (State.Exited · c) s

/-- The locks of a scan are in order: the children are distinct, and `c` is not locked yet. -/
theorem ordered_scan {all locked rest : List Nat} {s : State} (base : Base s)
    (split : all = locked ++ c :: rest) (h : Scans t p all locked F s) : Ordered s t (pcb c) := by
  have list : s.children (s.proc t) = all := by rw [h.proc, h.fact.1]
  have nodup : all.Nodup := list ▸ base.nodup (s.proc t)
  refine .scan ?_ ?_ fun m own => ?_
  · rw [list, split]
    exact List.mem_append_right _ List.mem_cons_self
  · rw [h.proc]
    exact h.holds.least _ own_mem_scanned (by simp)
  · rcases mem_scanned.mp (h.holds.most m own) with rfl | ⟨q, mem, rfl⟩
    · exact ⟨p, rfl, .inl h.proc.symm⟩
    · refine ⟨q, rfl, .inr ⟨?_, ?_⟩⟩
      · rw [list, split]
        exact List.mem_append_left _ mem
      · rintro rfl
        rw [split, List.nodup_append] at nodup
        exact nodup.2.2 q mem q List.mem_cons_self rfl

theorem meets_findExitedChild {all : List Nat} (rest locked : List Nat) (split : all = locked ++ rest) :
    Meets order tidy t (Scans t p all locked fun _ => True) (findExitedChild rest) (Found t p all) := by
  induction rest generalizing locked with
  | nil =>
      rw [List.append_nil] at split
      subst split
      exact Meets.pure fun _ _ h => h
  | cons c rest ih =>
      have fact : ∀ {H}, pcb p ∈ H → Fact t p H fun s => s.children p = all ∧ True :=
        fun mem => (fact_children mem).and fact_true
      have own : pcb p ∈ pcb c :: scanned p locked := List.mem_cons_of_mem _ own_mem_scanned
      refine meets_lock (fact own_mem_scanned) (by simp)
        (fun _ s inv h => ordered_scan inv.toBase split h) fun _ => ?_
      refine Meets.bind (meets_aliveCount (fact own) c) fun alive => Meets.ite (fun none => ?_) fun _ => ?_
      · refine Meets.pure fun s _ h => ⟨locked, rest, split, ?_⟩
        have h := h.congr scanned_append
        exact ⟨h.proc, h.holds, h.idle, h.fact.1.1, h.fact.2.1 none⟩
      · refine (ih (locked ++ [c]) (by rw [split, List.append_assoc]; rfl)).conseq
          (fun s _ h => ?_) fun _ _ h => h
        have h := h.congr scanned_append
        exact ⟨h.proc, h.holds, h.idle, h.fact.1⟩

/-- `unlock_children` releases what is locked, up to the child that was found. -/
theorem meets_unlockChildren {node : Option Nat} (locked back : List Nat)
    (fact : ∀ l, Fact t p (scanned p l) F) (nodup : locked.Nodup) (out : p ∉ locked)
    (stops : ∀ c, node = some c → ∃ front, locked = front ++ [c]) (whole : node = none → back = []) :
    Meets order tidy t (At t p (scanned p locked) F) (unlockChildren node (locked ++ back))
      fun _ => At t p [pcb p] F := by
  induction locked with
  | nil =>
      cases node with
      | none =>
          rw [whole rfl]
          exact Meets.pure fun _ _ h => h
      | some c =>
          obtain ⟨front, split⟩ := stops c rfl
          exact absurd split (by simp)
  | cons x rest ih =>
      obtain ⟨fresh, nodup⟩ := List.nodup_cons.mp nodup
      obtain ⟨apart, out⟩ := not_or.mp (mt List.mem_cons.mpr out)
      have new : pcb x ∉ scanned p rest := fun mem =>
        (pcb_mem_scanned.mp mem).elim (fun same => apart same.symm) fresh
      refine Meets.bind (meets_unlock (fact (x :: rest)) new) fun _ => Meets.ite (fun last => ?_) fun other => ?_
      · obtain ⟨front, split⟩ := stops x last
        cases front with
        | nil =>
            obtain rfl : rest = [] := (List.cons.inj split).2
            exact Meets.pure fun _ _ h => h
        | cons y front =>
            obtain ⟨-, rfl⟩ := List.cons.inj split
            exact absurd (List.mem_append_right _ (List.mem_singleton_self _)) fresh
      · refine ih nodup out fun c found => ?_
        obtain ⟨front, split⟩ := stops c found
        cases front with
        | nil => exact absurd (found.trans (congrArg some (List.cons.inj split).1.symm)) other
        | cons y front => exact ⟨front, (List.cons.inj split).2⟩

/-- The list of children is read again, under the lock. -/
theorem meets_again {all l : List Nat} {next : List Nat → Code α} {Q : α → State → Prop}
    (fact : Fact t p H fun s => s.children p = all ∧ F s) (same : l = all)
    (then_ : Meets order tidy t (At t p H fun s => s.children p = all ∧ F s) (next l) Q) :
    Meets order tidy t (At t p H fun s => s.children p = all ∧ F s) (childPcbList p >>= next) Q := by
  refine Meets.bind (meets_childPcbList fact p) fun l' => ?_
  refine Meets.learn (A := l' = l) (fun s _ h => ?_) fun equal => ?_
  · rw [same, ← h.fact.2, h.fact.1.1]
  · subst equal
    exact then_.conseq (fun s _ h => ⟨h.proc, h.holds, h.idle, h.fact.1⟩) fun _ _ h => h

/-- What the loop of `handle_wait` leaves: the lock of the PCB, and an exited child if it ends
with one. -/
def Waited (t p : Nat) : Option Nat → State → Prop
  | none => At t p [pcb p] fun _ => True
  | some c => At t p [pcb p] fun s => c ∈ s.children p ∧ s.Exited c

theorem meets_waitLoop (n : Nat) :
    Meets order tidy t (At t p [pcb p] fun _ => True) (waitLoop p n) (Waited t p) := by
  induction n with
  | zero => exact meets_never fact_true
  | succ n ih =>
      refine Meets.bind (meets_childPcbList fact_true p) fun all => Meets.ite (fun _ => ?_) fun _ => ?_
      · exact Meets.pure fun _ _ => At.any
      -- the children are distinct, and the process is not among them
      have own : ∀ l, pcb p ∈ scanned p l := fun l => own_mem_scanned
      refine Meets.learn (A := all.Nodup ∧ p ∉ all) (fun s inv h => ?_) fun distinct => ?_
      · rw [← h.fact.2]
        exact ⟨inv.nodup p, fun mem => Nat.lt_irrefl p (inv.lists p p mem).1⟩
      obtain ⟨nodup, out⟩ := distinct
      have scan : Meets order tidy t (Scans t p all [] fun _ => True) (findExitedChild all) (Found t p all) :=
        meets_findExitedChild all [] (List.nil_append all).symm
      refine Meets.bind (scan.conseq (fun s _ h => ?_) fun _ _ h => h) fun found => ?_
      · exact ⟨h.proc, h.holds, h.idle, h.fact.2, trivial⟩
      cases found with
      | none =>
          have fact : ∀ l, Fact t p (scanned p l) fun s => s.children p = all ∧ True :=
            fun l => (fact_children (own l)).and fact_true
          refine meets_again (fact all) (List.append_nil all) ?_
          refine Meets.bind (meets_unlockChildren all [] fact nodup out (by simp) fun _ => rfl) fun _ => ?_
          refine Meets.ite (fun some => absurd some (by simp)) fun _ => ?_
          have unlocks : Meets order tidy t (At t p [pcb p] fun s => s.children p = all ∧ True)
              (mutexUnlock (pcb p)) fun _ => At t p [] fun _ => True :=
            (meets_unlock (H := []) (fact []) (by simp)).conseq (fun _ _ h => h) fun _ _ => At.any
          refine Meets.bind unlocks fun _ => ?_
          exact meets_lock_plain fact_true (by simp) (by simp) (by simp) fun _ => ih
      | some c =>
          refine Meets.exists_ fun front => Meets.exists_ fun back => Meets.known fun split => ?_
          have mem : c ∈ all := split ▸ List.mem_append_right _ List.mem_cons_self
          have fact : ∀ l, Fact t p (scanned p l) fun s => s.children p = all ∧ s.Exited c :=
            fun l => fact_scan (own l) mem
          have parts : all = front ++ [c] ++ back := split.trans (List.append_cons front c back)
          rw [parts] at nodup out
          refine meets_again (fact _) parts.symm ?_
          refine Meets.bind (meets_unlockChildren (front ++ [c]) back fact (List.nodup_append.mp nodup).1
            (fun within => out (List.mem_append_left _ within)) (fun c' same => ⟨front, ?_⟩) (by simp))
            fun _ => Meets.ite (fun _ => ?_) fun none => absurd rfl none
          · rw [Option.some.inj same]
          · refine Meets.pure fun s _ h => ⟨h.proc, h.holds, h.idle, ?_, h.fact.2⟩
            rwa [h.fact.1]

theorem keeps_handOver (lt : p < c) (other : p ≠ root) :
    Keeps order tidy t p [pcb p] (fun s => s.gone c = true) (handOver p c) := by
  have low : init < c := Nat.lt_of_le_of_lt (Nat.one_le_iff_ne_zero.mpr other) lt
  refine Meets.ite (fun same => ?_) fun apart => ?_
  · exact meets_splice (by simp) (by simp [same]) lt low
  · have new : pcb init ∉ [pcb p] := by simpa using Ne.symm apart
    refine meets_lock fact_gone (by simp) (fun _ s _ h => .handOver ?_ fun m own => ?_) fun _ => ?_
    · rwa [h.proc]
    · rw [h.proc]
      exact List.mem_singleton.mp (h.holds.most m own)
    · exact Meets.bind (meets_splice (by simp) (by simp) lt low) fun _ => meets_unlock fact_gone new

/-! ### System calls -/

/-- The count of threads with which `fork` and `exec` begin. -/
theorem meets_count {next : Nat → Code Unit}
    (then_ : ∀ n, Meets order tidy t (At t p [] fun s => n = 1 → s.Alone t) (next n)
      fun _ => At t p [] fun _ => True) :
    Keeps order tidy t p [] (fun _ => True) (do
      mutexLock (pcb p)
      let n ← aliveCount p
      mutexUnlock (pcb p)
      next n) := by
  refine meets_lock_plain fact_true (by simp) (by simp) (by simp) fun new => ?_
  have counts : Meets order tidy t (At t p [pcb p] fun _ => True) (aliveCount p)
      fun n => At t p [pcb p] fun s => n = 1 → s.Alone t :=
    (meets_aliveCount fact_true p).conseq (fun _ _ h => h)
      fun n s h => ⟨h.proc, h.holds, h.idle, h.fact.2.2 rfl⟩
  refine Meets.bind counts fun n => Meets.bind (meets_unlock (fact_alone_if n) new) fun _ => then_ n

theorem keeps_handleFork : Keeps order tidy t p [] (fun _ => True) handleFork := by
  refine meets_self fact_true fun _ => meets_count fun n => Meets.ite (fun one => ?_) fun _ => ?_
  · exact Meets.conseq forks_forkCtrlBlk (fun s _ h => ⟨h.proc, h.holds, h.idle, h.fact one⟩)
      fun _ _ h => h
  · exact Meets.pure fun _ _ => At.any

section
variable (mode : order ∨ tidy)
include mode

theorem keeps_reap : Keeps order tidy t p [] (fun _ => True) reap := by
  have frees : Keeps order tidy t p [] (fun _ => True) (loop free) :=
    Keeps.loop fact_true (keeps_free fact_true low_nil)
  exact frees.bind fun _ => (keeps_touch mode calm_nil).bind fun _ =>
    (keeps_destructPageDir fact_true calm_nil).bind fun _ => frees

theorem keeps_handleWait : Keeps order tidy t p [] (fun _ => True) handleWait := by
  refine Keeps.test fact_true ?_ (Keeps.pure ())
  refine meets_self fact_true fun other => meets_lock_plain fact_true (by simp) (by simp) (by simp) fun new => ?_
  refine Meets.bind (keeps_ask fact_true) fun n => Meets.bind (meets_waitLoop n) fun found => ?_
  cases found with
  | none => exact meets_unlock fact_true new
  | some c =>
      refine Meets.bind (meets_detach (by simp)) fun _ => Meets.known fun lt => ?_
      refine Meets.bind (keeps_handOver lt other) fun _ => Meets.bind (meets_unlock fact_gone new) fun _ => ?_
      exact (keeps_reap mode).conseq (fun _ _ => At.any) fun _ _ h => h

theorem keeps_loadStep : Keeps order tidy t p [] (fun _ => True) loadStep := by
  have fact : Fact t p [] fun _ => True := fact_true
  refine Keeps.test fact (keeps_touch mode calm_nil) (Keeps.test fact ?_ (Keeps.test fact ?_
    (Keeps.test fact ?_ (Keeps.test fact ?_ ?_))))
  · exact (keeps_malloc fact low_nil).bind fun _ => Keeps.pure ()
  · exact keeps_free fact low_nil
  · exact (keeps_mapNewFrame fact calm_nil).bind fun _ => Keeps.pure ()
  · exact (keeps_setAvailability fact calm_nil).bind fun _ => Keeps.pure ()
  · exact keeps_destructPageDir fact calm_nil

theorem keeps_loadExecutable : Keeps order tidy t p [] (fun _ => True) loadExecutable :=
  (keeps_touch mode calm_nil).bind fun _ =>
    (keeps_constructPageDir fact_true low_nil).branch (Keeps.loop fact_true (keeps_loadStep mode))
      (Keeps.pure ())

theorem keeps_handleExec : Keeps order tidy t p [] (fun _ => True) handleExec := by
  refine meets_self fact_true fun _ => meets_count fun n => ?_
  have load : Keeps order tidy t p [] (fun _ => True) (do
      touch
      loadExecutable) := (keeps_touch mode calm_nil).bind fun _ => keeps_loadExecutable mode
  exact Meets.conseq (load.ite (Keeps.pure ())) (fun _ _ => At.any) fun _ _ h => h

theorem keeps_handleDeschedule : Keeps order tidy t p [] (fun _ => True) handleDeschedule :=
  meets_self fact_true fun _ => Keeps.test fact_true
    (Keeps.regionLast fact_true (by simp) (by simp) (by simp) (keeps_touch mode calm_pcb))
    (Keeps.pure ())

theorem keeps_printRegion : Keeps order tidy t p [] (fun _ => True) printRegion :=
  Keeps.regionLast fact_true (by simp) (by simp) (by simp) (keeps_touch mode (by simp [Calm, allowed]))

theorem keeps_handlePrint : Keeps order tidy t p [] (fun _ => True) handlePrint :=
  (keeps_touch mode calm_nil).bind fun _ =>
    Keeps.test fact_true (keeps_printRegion mode) (Keeps.pure ())

end

theorem keeps_handleTaskVanish : Keeps order tidy t p [] (fun _ => True) handleTaskVanish := by
  refine meets_self fact_true fun _ => meets_lock_plain fact_true (by simp) (by simp) (by simp) fun new => ?_
  refine Meets.bind meets_terminateSiblings fun _ => Meets.bind (meets_unlock fact_true new) fun _ => ?_
  exact meets_handleVanish (by simp) fun _ => rfl

theorem keeps_unmapPages (fact : Fact t p H F) (calm : Calm p H) :
    Keeps order tidy t p H F unmapPages :=
  Keeps.loop fact ((keeps_unmapFrame fact calm).bind fun _ =>
    (keeps_setAvailability fact calm).bind fun _ => Keeps.pure ())

theorem keeps_mapPages (fact : Fact t p H F) (calm : Calm p H) (n : Nat) :
    Keeps order tidy t p H F (mapPages n) := by
  have unmap : Keeps order tidy t p H F unmapPages := keeps_unmapPages fact calm
  have available : Keeps order tidy t p H F setAvailability := keeps_setAvailability fact calm
  induction n with
  | zero => exact Keeps.pure true
  | succ n ih =>
      refine available.branch ((keeps_mapNewFrame fact calm).branch ih ?_) ?_
      · exact available.bind fun _ => unmap.bind fun _ => Keeps.pure false
      · exact unmap.bind fun _ => Keeps.pure false

theorem keeps_removePages : Keeps order tidy t p [pcb p] (fun _ => True) removePages :=
  Keeps.test fact_true
    ((keeps_free fact_true calm_pcb.low).bind fun _ => keeps_unmapPages fact_true calm_pcb)
    (Keeps.pure ())

theorem keeps_handleRemovePages : Keeps order tidy t p [] (fun _ => True) handleRemovePages :=
  meets_self fact_true fun _ =>
    Keeps.regionLast fact_true (by simp) (by simp) (by simp) keeps_removePages

theorem keeps_handleSleep : Keeps order tidy t p [] (fun _ => True) handleSleep :=
  meets_self fact_true fun _ => Keeps.test fact_true
    (Keeps.regionEmpty fact_true (by simp) (by simp) (by simp)) (Keeps.pure ())

theorem keeps_handleThreadFork : Keeps order tidy t p [] (fun _ => True) handleThreadFork :=
  meets_self fact_true fun _ =>
    Keeps.regionLast fact_true (by simp) (by simp) (by simp) keeps_threadForkCtrlBlk

theorem keeps_consoleRegion (below : ∀ m ∈ H, m = inputLock) :
    Keeps order tidy t p H (fun _ => True) consoleRegion :=
  Keeps.regionEmpty fact_true (by simp) (by simp) fun _ m mem => by simp [allowed, below m mem]

/-- `readline` takes the lock of the PCB while it holds `inputLock`. -/
theorem keeps_awaitChar : Keeps order tidy t p [inputLock] (fun _ => True) (awaitChar p) := by
  have region : Keeps order tidy t p [inputLock] (fun _ => True) (do
      mutexLock (pcb p)
      mutexUnlock (pcb p)) :=
    Keeps.regionEmpty fact_true (by simp) (by simp) fun _ => by simp [allowed]
  exact (Keeps.loop fact_true region).bind fun _ => region

theorem keeps_readChar : Keeps order tidy t p [inputLock] (fun _ => True) (readChar p) :=
  keeps_awaitChar.bind fun _ => keeps_consoleRegion (by simp)

theorem meets_enterReadline : Meets order tidy t (At t p [] fun _ => True) (enterReadline p)
    fun _ => At t p [inputLock] fun _ => True := by
  refine meets_lock_plain fact_true (by simp) (by simp) (by simp) fun _ => ?_
  have unlocks : Meets order tidy t (At t p [inputLock, pcb p] fun _ => True) (mutexUnlock (pcb p))
      fun _ => At t p [inputLock] fun _ => True :=
    (meets_unlock fact_true (by simp)).conseq
      (fun _ _ h => h.congr fun m => by simp [or_comm]) fun _ _ h => h
  refine Meets.bind (meets_tryLock fact_true) fun _ => Meets.ite (fun _ => unlocks) fun _ => ?_
  refine Meets.bind unlocks fun _ => Meets.bind (meets_tryLock fact_true) fun _ => ?_
  exact Meets.pure fun _ _ h => h.congr fun m => by simp

section
variable (mode : order ∨ tidy)
include mode

theorem keeps_handleReadline : Keeps order tidy t p [] (fun _ => True) handleReadline := by
  refine (keeps_touch mode calm_nil).bind fun _ => Keeps.test fact_true ?_ (Keeps.pure ())
  refine meets_self fact_true fun _ => Meets.bind meets_enterReadline fun _ => ?_
  have touches : Keeps order tidy t p [inputLock] (fun _ => True) touch :=
    keeps_touch mode (by simp [Calm, allowed])
  refine Meets.bind (keeps_test fact_true) fun empty => ?_
  refine Meets.bind (keeps_onlyIf empty (Keeps.loop fact_true keeps_readChar)) fun _ => ?_
  exact Meets.bind touches fun _ => meets_unlock fact_true (by simp)

theorem keeps_newPages : Keeps order tidy t p [pcb p] (fun _ => True) newPages := by
  have fact : Fact t p [pcb p] fun _ => True := fact_true
  have unmap : Keeps order tidy t p [pcb p] (fun _ => True) unmapPages := keeps_unmapPages fact calm_pcb
  refine (keeps_touch mode calm_pcb).bind fun _ => Keeps.test fact ?_ (Keeps.pure ())
  refine (keeps_ask fact).bind fun n => (keeps_mapPages fact calm_pcb n).branch ?_ (Keeps.pure ())
  exact (keeps_malloc fact calm_pcb.low).branch (Keeps.pure ()) unmap

theorem keeps_handleNewPages : Keeps order tidy t p [] (fun _ => True) handleNewPages :=
  meets_self fact_true fun _ =>
    Keeps.regionLast fact_true (by simp) (by simp) (by simp) (keeps_newPages mode)

theorem keeps_handleSetCursorPos : Keeps order tidy t p [] (fun _ => True) handleSetCursorPos :=
  (keeps_touch mode calm_nil).bind fun _ => keeps_consoleRegion (by simp)

theorem keeps_handleGetCursorPos : Keeps order tidy t p [] (fun _ => True) handleGetCursorPos :=
  (keeps_touch mode calm_nil).bind fun _ =>
    Keeps.test fact_true (keeps_printRegion mode) (Keeps.pure ())

/-! ### Guests -/

omit mode in
theorem keeps_crashGuest : Keeps order tidy t p [] (fun _ => True) crashGuest :=
  meets_handleVanish (by simp) fun _ => rfl

theorem keeps_handleHvPrint : Keeps order tidy t p [] (fun _ => True) handleHvPrint :=
  (keeps_touch mode calm_nil).bind fun _ =>
    Keeps.test fact_true (keeps_printRegion mode) keeps_crashGuest

/-- A hypervisor call with an empty region of the console lock. -/
theorem keeps_console : Keeps order tidy t p [] (fun _ => True) (do
    touch
    consoleRegion
    if ← test then pure () else crashGuest) :=
  (keeps_touch mode calm_nil).bind fun _ => (keeps_consoleRegion (by simp)).bind fun _ =>
    Keeps.test fact_true (Keeps.pure ()) keeps_crashGuest

theorem keeps_handleHvPrintAt : Keeps order tidy t p [] (fun _ => True) handleHvPrintAt := by
  refine (keeps_touch mode calm_nil).bind fun _ => Keeps.test fact_true ?_ keeps_crashGuest
  refine meets_lock_plain fact_true (by simp) (by simp) (by simp) fun new => ?_
  refine Meets.bind (keeps_test fact_true) fun success => ?_
  refine Meets.bind (keeps_onlyIf success (keeps_touch mode (by simp [Calm, allowed]))) fun _ => ?_
  exact Meets.bind (meets_unlock fact_true new) fun _ => (Keeps.pure ()).ite keeps_crashGuest

theorem keeps_handleVirtualInterrupt :
    Keeps order tidy t p [] (fun _ => True) handleVirtualInterrupt :=
  (keeps_touch mode calm_nil).bind fun _ => Keeps.test fact_true (Keeps.pure ()) keeps_crashGuest

theorem keeps_handleHvExit : Keeps order tidy t p [] (fun _ => True) handleHvExit :=
  (keeps_touch mode calm_nil).bind fun _ => keeps_crashGuest

/-! ### Calls -/

theorem keeps_handler (call : Call) : Keeps order tidy t p [] (fun _ => True) (handler call) := by
  cases call with
  | plain => exact Keeps.pure ()
  | fork => exact keeps_handleFork
  | exec => exact keeps_handleExec mode
  | wait => exact keeps_handleWait mode
  | vanish => exact keeps_crashGuest
  | taskVanish => exact keeps_handleTaskVanish
  | deschedule => exact keeps_handleDeschedule mode
  | print => exact keeps_handlePrint mode
  | readline => exact keeps_handleReadline mode
  | newPages => exact keeps_handleNewPages mode
  | removePages => exact keeps_handleRemovePages
  | swexn => exact keeps_touch mode calm_nil
  | readfile => exact keeps_touch mode calm_nil
  | sleep => exact keeps_handleSleep
  | threadFork => exact keeps_handleThreadFork
  | setTermColor => exact keeps_consoleRegion (by simp)
  | setCursorPos => exact keeps_handleSetCursorPos mode
  | getCursorPos => exact keeps_handleGetCursorPos mode
  | fault => exact keeps_handleFault mode
  | hvPrint => exact keeps_handleHvPrint mode
  | hvConsSetTermColor => exact keeps_console mode
  | hvConsSetCursorPos => exact keeps_console mode
  | hvConsGetCursorPos => exact keeps_handleHvPrint mode
  | hvPrintAt => exact keeps_handleHvPrintAt mode
  | hvExit => exact keeps_handleHvExit mode
  | virtualInterrupt => exact keeps_handleVirtualInterrupt mode

/-- Between two calls a thread holds nothing, whatever the calls are. -/
theorem program_meets (call : Call) :
    (system order tidy).Triple t (Ready t) (program call) fun _ => Ready t := by
  intro s inv live ready
  have start : At t (s.proc t) [] (fun _ => True) s := ⟨rfl, ready.holds, ready.idle, trivial⟩
  refine Sys.Triple.bind (keeps_handler mode call) (fun x => ?_) s inv live start
  refine Sys.Triple.ret fun s' _ h => ?_
  cases x with
  | none => exact h
  | some x => exact h.ready

end

end OsKernel.Locks
