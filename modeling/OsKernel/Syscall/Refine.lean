/-
The calls refine the programs of the memory model.

A call of a thread whose directory is in `%cr3` and in its PCB does to the kernel what
the program of the memory model does (`follows_call`): what it adds to the control part
the memory model does not see. So the invariant of the memory model, and what it says
about threads between two calls, holds in every run of calls (`sound_step`).
-/

import OsKernel.Syscall.Records

namespace OsKernel.Syscall

open OsKernel.Vm OsKernel.Memory Prog Sys

/-- Thread `t` runs in directory `d`. -/
structure Runs (t d : Nat) (m : Machine) : Prop where
  running : m.running = t
  cr3 : m.cr3 = d
  pageDirectory : m.pageDirectory = d

/-- The program of a call and one of the memory model, performed by thread `t`. -/
abbrev Follows {α β : Type} (t : Nat) (P : Machine → Prop) (p : KProgram α) (q : Program β)
    (Q : α → β → Machine → Prop) : Prop :=
  Refines (Kernel.exec t) (Kernel.alive t) Machine.exec Machine.live Machine.kernel P p q Q

variable {t d : Nat}

/-- The thread runs in its directory, and it is alive. -/
def Inside (t d : Nat) (m : Machine) : Prop := Runs t d m ∧ m.live = true

/-- As `Inside`, and the directory is the one of its process. -/
def AtHome (t d : Nat) (m : Machine) : Prop :=
  Inside t d m ∧ (m.kernel.proc t).map Proc.dir = some d

theorem Via.of_runs {c : Ctl} {m : Machine} {a : Act} (via : Via c a) (cr3 : c.cr3 = d)
    (pageDirectory : c.pageDirectory = d) (runs : Runs t d m) : Via m.toCtl a := by
  have h₁ : m.cr3 = c.cr3 := runs.cr3.trans cr3.symm
  have h₂ : m.pageDirectory = c.pageDirectory := runs.pageDirectory.trans pageDirectory.symm
  cases a with
  | clearPage e v => exact Eq.trans via h₁.symm
  | copyPage e child v => exact ⟨Eq.trans via.1 h₁.symm, Eq.trans via.2 h₂.symm⟩
  | place e v b => exact Eq.trans via h₁.symm
  | copyOut e v b => exact Eq.trans via h₁.symm
  | _ => trivial

theorem Runs.of_same {m m' : Machine} (runs : Runs t d m) (ctl : SameCtl m m') : Runs t d m' := by
  refine ⟨?_, ?_, ?_⟩ <;> rw [ctl]
  · exact runs.running
  · exact runs.cr3
  · exact runs.pageDirectory

/-- A program of the memory model that works in the directory of the thread. -/
theorem follows_lift {α : Type} {p : Program α} {c : Ctl} (via : p.All (Via c))
    (cr3 : c.cr3 = d) (pageDirectory : c.pageDirectory = d) :
    Follows t (Inside t d) (lift p) p fun x y m => x = y ∧ Inside t d m := by
  refine Refines.hoist (via.mono fun a via m runs => ?_)
  obtain ⟨m', ran, same, ctl⟩ := simulates_mem (via.of_runs cr3 pageDirectory runs) m (.refl m)
  rw [runs.running] at ran same
  exact ⟨m', ran, same, runs.of_same ctl⟩

theorem follows_mem {a : Act} (via : ∀ c, Via c a) :
    Follows t (Inside t d) (mem a) (act a) fun x y m => x = y ∧ Inside t d m := by
  rintro m ⟨runs, live⟩
  exact follows_lift (c := m.toCtl) (p := act a) (all_perform (via _)) runs.cr3
    runs.pageDirectory m ⟨runs, live⟩

/-- The PCB the thread finds is the one with its directory. -/
theorem follows_current :
    Follows t (AtHome t d) (mem .current) (act .current) fun x y m =>
      ∃ pr, x = some pr ∧ y = some pr ∧ pr.dir = d ∧ Inside t d m := by
  rintro m ⟨⟨runs, live⟩, home⟩
  obtain ⟨m', out, ran, ran', post⟩ :=
    follows_mem (d := d) (a := .current) (fun _ => trivial) m ⟨runs, live⟩
  obtain ⟨pr, proc, dir⟩ := Option.map_eq_some_iff.mp home
  have alive : Kernel.alive t m.kernel = true := runs.running ▸ live
  have result : (m.kernel.eval t (act .current)).2 = some (some pr) := by
    rw [Kernel.eval, eval_perform]
    simp only [Kernel.exec, alive, ↓reduceIte, proc]
  refine ⟨m', out, ran, ran', fun x y eq => ?_⟩
  obtain ⟨rfl, inside⟩ := post x y eq
  rw [Kernel.eval, ran', eq] at result
  exact ⟨pr, Option.some.inj result, Option.some.inj result, dir, inside⟩

/-- A look at the machine. -/
theorem follows_look {α β : Type} {P : Machine → Prop} (alive : ∀ m, P m → m.live = true)
    {k : Machine → KProgram α} {q : Program β} {Q : α → β → Machine → Prop}
    (next : ∀ m₀, Follows t (fun m => m₀ = m ∧ P m) (k m₀) q Q) :
    Follows t P (look >>= k) q Q :=
  Refines.left next fun m pre => ⟨alive m pre, rfl, rfl, pre⟩

/-- A change of the control part. -/
theorem follows_ctl {α β : Type} {P J : Machine → Prop} (alive : ∀ m, P m → m.live = true)
    {f : Ctl → Ctl} (running : ∀ c, (f c).running = c.running)
    (does : ∀ m, P m → J (m.setCtl (f m.toCtl))) {k : Unit → KProgram α} {q : Program β}
    {Q : α → β → Machine → Prop} (next : Follows t J (k ()) q Q) :
    Follows t P (ctl f >>= k) q Q := by
  refine Refines.left (fun _ => next) fun m pre => ⟨?_, rfl, does m pre⟩
  have := alive m pre
  rw [Machine.live] at this ⊢
  change Kernel.alive (f m.toCtl).running m.kernel = true
  rw [running]
  exact this

/-- The memory model asks for the PCB, where the call takes the directory from
`%cr3`. -/
theorem follows_right {α β : Type} {p : KProgram α} {k : Option Proc → Program β}
    {Q : α → β → Machine → Prop}
    (next : ∀ pr, pr.dir = d → Follows t (Inside t d) p (k (some pr)) Q) :
    Follows t (AtHome t d) p (act .current >>= k) Q := by
  rintro m ⟨⟨runs, live⟩, home⟩
  obtain ⟨pr, proc, dir⟩ := Option.map_eq_some_iff.mp home
  obtain ⟨m', out, ran, ran', post⟩ := next pr dir m ⟨runs, live⟩
  refine ⟨m', out, ran, ?_, post⟩
  have alive : Kernel.alive t m.kernel = true := runs.running ▸ live
  rw [eval_bind, eval_perform]
  simp only [Kernel.exec, alive, ↓reduceIte, proc]
  exact ran'

/-- A change of the control part that leaves the directory of the thread alone. -/
theorem follows_note {α β : Type} {f : Ctl → Ctl} (same : ∀ c, (f c).running = c.running ∧
      (f c).cr3 = c.cr3 ∧ (f c).pageDirectory = c.pageDirectory) {k : Unit → KProgram α}
    {q : Program β} {Q : α → β → Machine → Prop} (next : Follows t (Inside t d) (k ()) q Q) :
    Follows t (Inside t d) (ctl f >>= k) q Q := by
  refine follows_ctl (P := Inside t d) (fun m h => h.2) (fun c => (same c).1) (fun m h => ?_) next
  obtain ⟨running, cr3, pageDirectory⟩ := same m.toCtl
  refine ⟨⟨running.trans h.1.running, cr3.trans h.1.cr3,
    pageDirectory.trans h.1.pageDirectory⟩, ?_⟩
  have live := h.2
  rw [Machine.live] at live ⊢
  change Kernel.alive (f m.toCtl).running m.kernel = true
  rwa [running]

/-! ### Pages and faults -/

theorem follows_handlePageFault (present write : Bool) (v : Nat) :
    Follows t (Inside t d) (pageFault present write v) (handlePageFault d present write v)
      fun _ _ _ => True := by
  unfold pageFault
  refine follows_note ?_ ?_
  · exact fun _ => ⟨rfl, rfl, rfl⟩
  refine follows_look (fun _ h => h.2) fun m₀ => ?_
  rintro m ⟨rfl, runs, live⟩
  have := follows_lift (t := t) (via_of_works (works_handlePageFault m₀.cr3 present write v)) runs.cr3
    runs.pageDirectory m₀ ⟨runs, live⟩
  rw [runs.cr3] at this ⊢
  obtain ⟨m', out, ran, ran', -⟩ := this
  exact ⟨m', out, ran, ran', fun _ _ _ => trivial⟩

/-- A page fault in the memory model. -/
def faultProgram (present write : Bool) (v : Nat) : Program Unit := do
  match ← act .current with
  | none => pure ()
  | some pr => handlePageFault pr.dir present write v

theorem follows_pageFault (present write : Bool) (v : Nat) :
    Follows t (AtHome t d) (pageFault present write v) (faultProgram present write v)
      fun _ _ _ => True := by
  refine follows_right fun pr dir => ?_
  rw [← dir]
  exact follows_handlePageFault present write v

/-- An action on memory, by a thread that goes on to look at its PCB. -/
theorem follows_onMemory {a : Act} (via : ∀ c, Via c a) (onMemory : OnMemory a) :
    Follows t (AtHome t d) (mem a) (act a) fun x y m => x = y ∧ AtHome t d m := by
  rintro m ⟨inside, home⟩
  obtain ⟨m', out, ran, ran', post⟩ := follows_mem via m inside
  refine ⟨m', out, ran, ran', fun x y eq => ?_⟩
  obtain ⟨same, inside'⟩ := post x y eq
  refine ⟨same, inside', ?_⟩
  have kernel : m'.kernel = (Kernel.exec t a m.kernel).1 := by
    have := congrArg Prod.fst ran'
    rw [eval_perform] at this
    refine Eq.trans this.symm ?_
    split <;> rfl
  have procs := sameProcs_exec onMemory t m.kernel
  rw [kernel, Kernel.proc, procs.thread, procs.procs]
  exact home

/-- What a user access does after the action itself. -/
theorem follows_completion (write : Bool) (v : Nat) (outcome : Completion) :
    Follows t (AtHome t d) (match outcome with
        | .done => pure ()
        | .fault present => userFault present write v)
      (match outcome with
        | .done => pure ()
        | .fault present => do
            match ← act .current with
            | none => pure ()
            | some pr => if pr.guest then pure () else handlePageFault pr.dir present write v)
      fun _ _ _ => True := by
  cases outcome with
  | done => exact Refines.ret fun _ _ => trivial
  | fault present =>
      refine Refines.bind follows_current fun x y => ?_
      rintro m ⟨pr, rfl, rfl, dir, inside⟩
      dsimp only
      split
      · exact Refines.ret (fun _ _ => trivial) m inside
      · rw [dir]
        exact follows_handlePageFault present write v m inside

theorem follows_load (v : Nat) :
    Follows t (AtHome t d) (load v) (Memory.load v) fun _ _ _ => True := by
  refine Refines.bind (follows_onMemory (fun _ => trivial) trivial) fun x y => ?_
  rintro m ⟨rfl, home⟩
  cases x with
  | done => exact follows_completion false v .done m home
  | fault present => exact follows_completion false v (.fault present) m home

theorem follows_store (v : Nat) (b : UInt8) :
    Follows t (AtHome t d) (store v b) (Memory.store v b) fun _ _ _ => True := by
  refine Refines.bind (follows_onMemory (fun _ => trivial) trivial) fun x y => ?_
  rintro m ⟨rfl, home⟩
  cases x with
  | done => exact follows_completion true v .done m home
  | fault present => exact follows_completion true v (.fault present) m home

/-- The end of a call, with a result that the memory model does not have. -/
theorem follows_then {α β γ : Type} {P : Machine → Prop} {p : KProgram α} {q : Program β} {x : γ}
    {Q : α → β → Machine → Prop} (h : Follows t P p q Q) :
    Follows t P (p >>= fun _ => pure x) q fun _ _ _ => True := by
  intro m pre
  obtain ⟨m', out, ran, ran', -⟩ := h m pre
  refine ⟨m', out.map fun xy => (x, xy.2), ?_, ?_, fun _ _ _ => trivial⟩
  · rw [eval_bind, ran]
    cases out <;> rfl
  · rw [ran']
    cases out <;> rfl

theorem follows_newPages (base : Nat) (len : Int) (physFrames : Nat) :
    Follows t (AtHome t d) (newPages base len physFrames) (Memory.newPages base len physFrames)
      fun _ _ _ => True := by
  refine follows_look (fun _ h => h.1.2) fun m₀ => ?_
  rintro m ⟨rfl, home⟩
  have cr3 := home.1.1.cr3
  have pageDirectory := home.1.1.pageDirectory
  refine Refines.bind follows_current (fun x y => ?_) m₀ home
  rintro m ⟨pr, rfl, rfl, rfl, inside⟩
  dsimp only
  split
  swap
  · exact Refines.ret (fun _ _ => trivial) m inside
  refine Refines.bind (Q := fun x y m => x = y ∧ Inside t pr.dir m) ?_ (fun x y => ?_) m inside
  · rw [← cr3]
    exact follows_lift (c := m₀.toCtl) (via_of_works (works_newPagesLoop _ base 0 _)) rfl (pageDirectory.trans cr3.symm)
  rintro m ⟨rfl, inside⟩
  cases x with
  | false => exact Refines.ret (fun _ _ => trivial) m inside
  | true =>
      refine Refines.bind (follows_mem (a := .malloc recordSize) fun _ => trivial) (fun x y => ?_) m
        inside
      rintro m ⟨rfl, inside⟩
      cases x with
      | false =>
          refine follows_then (Q := fun x y m => x = y ∧ Inside t pr.dir m) ?_ m inside
          rw [← cr3]
          exact follows_lift (c := m₀.toCtl) (via_of_works (works_releasePages _ _ _)) rfl (pageDirectory.trans cr3.symm)
      | true => exact follows_then (follows_mem (a := .setAllocations _) fun _ => trivial) m inside

theorem follows_removePages (base : Nat) :
    Follows t (AtHome t d) (removePages base) (Memory.removePages base) fun _ _ _ => True := by
  refine follows_look (fun _ h => h.1.2) fun m₀ => ?_
  rintro m ⟨rfl, home⟩
  have cr3 := home.1.1.cr3
  have pageDirectory := home.1.1.pageDirectory
  refine Refines.bind follows_current (fun x y => ?_) m₀ home
  rintro m ⟨pr, rfl, rfl, rfl, inside⟩
  dsimp only
  cases findAllocation base pr.allocs with
  | none => exact Refines.ret (fun _ _ => trivial) m inside
  | some out =>
      refine Refines.bind (follows_mem (a := .setAllocations out.2) fun _ => trivial) (fun x y => ?_)
        m inside
      rintro m ⟨-, inside⟩
      refine Refines.bind (Q := fun x y m => x = y ∧ Inside t pr.dir m) ?_ (fun x y => ?_) m inside
      · rw [← cr3]
        exact follows_lift (c := m₀.toCtl) (via_of_works (works_removeLoop _ _)) rfl (pageDirectory.trans cr3.symm)
      rintro m ⟨rfl, inside⟩
      cases x with
      | false => exact Refines.ret (fun _ _ => trivial) m inside
      | true =>
          suffices last : Follows t (Inside t pr.dir)
              (setCr3 m₀.cr3 >>= fun _ => pure Removal.removed) (pure ()) _ from last m inside
          refine follows_ctl (J := fun _ => True) (fun _ h => h.2) ?_ (fun _ _ => trivial) ?_
          · exact fun _ => rfl
          · exact Refines.ret fun _ _ => trivial

/-! ### Fork -/

theorem via_mallocs (c : Ctl) (sizes : List Nat) : (mallocs sizes).All (Via c) :=
  all_forAll fun _ _ => all_perform trivial

/-- The actions of the copy from directory `parent` to `child`. -/
def Copies (parent child : Nat) : Act → Prop
  | .checkUserPage .. | .getAccess .. | .getAvailability .. => True
  | .mapNewFrame e _ | .mapZeroFrame e _ | .setAccess e .. | .setAvailability e .. => e = child
  | .copyPage e e' _ => e = parent ∧ e' = child
  | _ => False

theorem copies_forkPage (parent child v : Nat) : (forkPage parent child v).All (Copies parent child) := by
  refine all_bind (all_bind (all_perform rfl) fun r => ?_) fun r => ?_
  · split
    · exact all_perform rfl
    · trivial
  split
  · refine all_bind (all_perform ⟨rfl, rfl⟩) fun _ => all_bind (all_perform trivial) fun r => ?_
    split
    · exact all_bind (all_perform rfl) fun _ => trivial
    · trivial
  · trivial

theorem copies_forkPages (parent child page : Nat) :
    (forkPages parent child page).All (Copies parent child) := by
  generalize hn : virtualAddrEnd / pageSize - page = n
  induction n using Nat.strong_induction_on generalizing page with
  | _ n ih =>
  have goOn : ∀ next, page < next → page < virtualAddrEnd / pageSize → ∀ ok : Bool,
      (if ok = true then forkPages parent child next else pure false).All (Copies parent child) := by
    intro next lt bound ok
    split
    · exact ih (virtualAddrEnd / pageSize - next) (by omega) next rfl
    · trivial
  rw [forkPages]
  split
  swap
  · trivial
  rename_i bound
  refine all_bind (all_perform trivial) fun r => ?_
  rcases r with - | - | - | - | -
  · trivial
  · refine all_bind (all_bind (all_perform trivial) fun r => ?_) (goOn _ ?_ bound)
    · split
      · exact all_forAll fun _ _ => all_perform rfl
      · trivial
    · have := Nat.lt_div_mul_add (a := page) (b := pteCount) (by decide)
      simp only [pteCount, pageSize, Nat.reduceDiv] at *
      omega
  · refine all_bind (all_perform trivial) fun r => ?_
    cases r with
    | none => trivial
    | some avail => exact all_bind (all_perform rfl) (goOn _ (Nat.lt_succ_self page) bound)
  · refine all_bind (all_bind (all_perform rfl) fun r => ?_)
      (goOn _ (Nat.lt_succ_self page) bound)
    split
    · exact all_perform rfl
    · trivial
  · exact all_bind (copies_forkPage parent child _) (goOn _ (Nat.lt_succ_self page) bound)

theorem via_forkPages {c : Ctl} (same : c.pageDirectory = c.cr3) (child page : Nat) :
    (forkPages c.cr3 child page).All (Via c) := by
  refine (copies_forkPages c.cr3 child page).mono fun a copies => ?_
  cases a with
  | copyPage e e' v => exact ⟨copies.1, copies.1.trans same.symm⟩
  | clearPage | place | copyOut => exact copies.elim
  | _ => trivial

/-- An action on lists and blocks. -/
def Quiet : KAct → Prop
  | .mem _ => False
  | .ctl f => ∀ c, (f c).running = c.running ∧ (f c).cr3 = c.cr3 ∧
      (f c).pageDirectory = c.pageDirectory
  | .look => True

/-- One that leaves the cache alone as well. -/
def Tidy : KAct → Prop
  | .mem _ => False
  | .ctl f => ∀ c, (f c).running = c.running ∧ (f c).cr3 = c.cr3 ∧
      (f c).pageDirectory = c.pageDirectory ∧ (f c).tlb = c.tlb
  | .look => True

theorem quiet_of_tidy {α : Type} {p : KProgram α} (tidy : p.All Tidy) : p.All Quiet := by
  refine tidy.mono fun a h => ?_
  cases a with
  | ctl f => exact fun c => ⟨(h c).1, (h c).2.1, (h c).2.2.1⟩
  | _ => exact h

/-- What a call does to lists and blocks, the memory model does not see. -/
theorem follows_quiet {α β γ : Type} {p : KProgram α} (quiet : p.All Quiet) {k : α → KProgram β}
    {q : Program γ} {Q : β → γ → Machine → Prop}
    (next : ∀ x, Follows t (Inside t d) (k x) q Q) : Follows t (Inside t d) (p >>= k) q Q := by
  induction p with
  | ret x => exact next x
  | act a f ih =>
      cases a with
      | mem a => exact quiet.1.elim
      | ctl g => exact follows_note quiet.1 (ih () (quiet.2 ()))
      | look =>
          refine follows_look (fun _ h => h.2) fun m₀ => ?_
          rintro m ⟨-, inside⟩
          exact ih m₀ (quiet.2 m₀) m inside

theorem follows_tidy {α β γ : Type} {p : KProgram α} (tidy : p.All Tidy) {k : α → KProgram β}
    {q : Program γ} {Q : β → γ → Machine → Prop}
    (next : ∀ x, Follows t (Inside t d) (k x) q Q) : Follows t (Inside t d) (p >>= k) q Q :=
  follows_quiet (quiet_of_tidy tidy) next

theorem tidy_free (block : Nat) : (free block).All Tidy := all_perform fun _ => ⟨rfl, rfl, rfl, rfl⟩

theorem tidy_popChild (p : Nat) : (popChild p).All Tidy := by
  refine all_bind (all_perform trivial) fun m => ?_
  split
  · trivial
  · exact all_bind (all_perform fun _ => ⟨rfl, rfl, rfl, rfl⟩) fun _ => tidy_free _

theorem tidy_popTcb (p : Nat) : (popTcb p).All Tidy := by
  refine all_bind (all_perform trivial) fun m => ?_
  split
  · trivial
  · exact all_bind (all_perform fun _ => ⟨rfl, rfl, rfl, rfl⟩) fun _ => tidy_free _

theorem tidy_popRecords (p : Nat) (nodes : List (Node (Nat × Int))) :
    (popRecords p nodes).All Tidy := by
  induction nodes with
  | nil => trivial
  | cons node nodes ih =>
      exact all_bind (all_perform fun _ => ⟨rfl, rfl, rfl, rfl⟩) fun _ => all_bind (tidy_free _) fun _ => ih

theorem tidy_dropRecords (p : Nat) : (dropRecords p).All Tidy := by
  refine all_bind (all_perform trivial) fun m => ?_
  split
  · trivial
  · exact tidy_popRecords _ _

theorem tidy_newTid (p : Nat) : (newTid p).All Tidy :=
  all_bind (all_perform trivial) fun _ => all_bind (all_perform fun _ => ⟨rfl, rfl, rfl, rfl⟩) fun _ => trivial

/-- `malloc`, whose address the memory model does not have. -/
theorem follows_malloc (size : Nat) :
    Follows t (Inside t d) (malloc size) (act (.malloc size)) fun x y m =>
      x.isSome = y ∧ Inside t d m := by
  rw [← bind_pure (act (.malloc size))]
  refine Refines.bind (follows_mem fun _ => trivial) fun x y => ?_
  rintro m ⟨rfl, inside⟩
  cases x with
  | true =>
      refine follows_look (fun _ h => h.2) (fun m₀ => ?_) m inside
      rintro m ⟨-, inside⟩
      refine follows_note ?_ ?_ m inside
      · exact fun _ => ⟨rfl, rfl, rfl⟩
      · exact Refines.ret fun _ inside => ⟨rfl, inside⟩
  | false => exact Refines.ret (fun _ inside => ⟨rfl, inside⟩) m inside

/-- A node of a list. -/
theorem follows_push {size : Nat} {f : Nat → Ctl → Ctl} (same : ∀ block c,
      (f block c).running = c.running ∧ (f block c).cr3 = c.cr3 ∧
      (f block c).pageDirectory = c.pageDirectory) :
    Follows t (Inside t d) (do
        match ← malloc size with
        | none => pure false
        | some block =>
            ctl (f block)
            pure true) (act (.malloc size)) fun x y m => x = y ∧ Inside t d m := by
  rw [← bind_pure (act (.malloc size))]
  refine Refines.bind (follows_malloc size) fun x y => ?_
  rintro m ⟨rfl, inside⟩
  cases x with
  | none => exact Refines.ret (fun _ inside => ⟨rfl, inside⟩) m inside
  | some block =>
      refine follows_note (same block) ?_ m inside
      exact Refines.ret fun _ inside => ⟨rfl, inside⟩

/-- The part of `fork_ctrl_blk` that copies the PCB, in the memory model. -/
def copyProgram (parent child : Nat) (allocs : List (Nat × Int)) : Program Bool := do
  if ← act (.malloc pageSize) then
    if ← act (.malloc recordSize) then
      if ← forkPages parent child kernelPageCount then
        forAll (fun _ => act (.malloc recordSize)) allocs
      else pure false
    else pure false
  else pure false

/-- The part that copies the TCB. -/
def finishProgram (child : Nat) (allocs : List (Nat × Int)) : Program Unit := do
  if ← act (.malloc recordSize) then
    if ← act (.malloc recordSize) then act (.newProcess child allocs)
    else act (.destructPageDir child)
  else act (.destructPageDir child)

theorem forkCtrlBlk_eq : Memory.forkCtrlBlk = (do
    match ← act .current with
    | none => pure ()
    | some pr => match ← act .constructPageDir with
        | none => pure ()
        | some child =>
            if ← copyProgram pr.dir child pr.allocs then finishProgram child pr.allocs
            else act (.destructPageDir child)) := by
  refine bind_congr fun r => ?_
  cases r with
  | none => rfl
  | some pr =>
  refine bind_congr fun r => ?_
  cases r with
  | none => rfl
  | some child =>
  simp only [mallocs, copyProgram, finishProgram, forAll_append, forAll_map, forAll, bind_assoc]
  refine bind_congr fun ok => ?_
  cases ok with
  | false => rfl
  | true =>
  simp only [↓reduceIte, bind_assoc]
  refine bind_congr fun ok => ?_
  cases ok with
  | false => rfl
  | true =>
  simp only [↓reduceIte, bind_assoc, pure_bind]
  refine bind_congr fun ok => ?_
  cases ok with
  | false => rfl
  | true =>
  simp only [↓reduceIte]
  refine bind_congr fun ok => ?_
  cases ok with
  | false => rfl
  | true =>
  simp only [↓reduceIte, bind_assoc]
  refine bind_congr fun ok => ?_
  cases ok with
  | false => rfl
  | true =>
  simp only [↓reduceIte, bind_assoc]
  refine bind_congr fun ok => ?_
  cases ok <;> rfl

theorem follows_pushChild (p child : Nat) :
    Follows t (Inside t d) (pushChild p child) (act (.malloc recordSize)) fun x y m =>
      x = y ∧ Inside t d m :=
  follows_push (f := fun block c =>
    c.setChildren p (c.childPcbList p ++ [⟨block, { pageDirectory := child }⟩]))
    fun _ _ => ⟨rfl, rfl, rfl⟩

theorem follows_pushRecord (p : Nat) (record : Nat × Int) :
    Follows t (Inside t d) (pushRecord p record) (act (.malloc recordSize)) fun x y m =>
      x = y ∧ Inside t d m :=
  follows_push (f := fun block c => c.setChild p fun pcb =>
    { pcb with pageAllocationList := pcb.pageAllocationList ++ [⟨block, record⟩] })
    fun _ _ => ⟨rfl, rfl, rfl⟩

theorem follows_pushTcb (p tid : Nat) :
    Follows t (Inside t d) (pushTcb p tid) (act (.malloc recordSize)) fun x y m =>
      x = y ∧ Inside t d m :=
  follows_push (f := fun block c => c.setChild p fun pcb =>
    { pcb with tcbList := ⟨block, tid⟩ :: pcb.tcbList }) fun _ _ => ⟨rfl, rfl, rfl⟩

theorem follows_records (p : Nat) (allocs : List (Nat × Int)) :
    Follows t (Inside t d) (forAll (pushRecord p) allocs)
      (forAll (fun _ => act (.malloc recordSize)) allocs) fun x y m => x = y ∧ Inside t d m := by
  induction allocs with
  | nil => exact Refines.ret fun _ inside => ⟨rfl, inside⟩
  | cons r rs ih =>
      refine Refines.bind (follows_pushRecord p r) fun x y => ?_
      rintro m ⟨rfl, inside⟩
      cases x with
      | true => exact ih m inside
      | false => exact Refines.ret (fun _ inside => ⟨rfl, inside⟩) m inside

theorem follows_copyPcb (p child : Nat) (allocs : List (Nat × Int)) :
    Follows t (Inside t d) (copyPcb p d child allocs) (copyProgram d child allocs)
      fun x y m => x = y ∧ Inside t d m := by
  have stop : Follows t (Inside t d) (pure false) (pure false)
      fun x y m => x = y ∧ Inside t d m := Refines.ret fun _ inside => ⟨rfl, inside⟩
  refine Refines.bind (follows_malloc pageSize) fun buf y => ?_
  rintro m ⟨rfl, inside⟩
  cases buf with
  | none => exact stop m inside
  | some buf =>
      refine Refines.bind (follows_pushChild p child) (fun x y => ?_) m inside
      rintro m ⟨rfl, inside⟩
      cases x with
      | false => exact follows_tidy (tidy_free buf) (fun _ => stop) m inside
      | true =>
          refine Refines.bind (Q := fun x y m => x = y ∧ Inside t d m) ?_ (fun x y => ?_) m inside
          · rintro m ⟨runs, live⟩
            rw [← runs.cr3]
            exact follows_lift (via_forkPages (runs.pageDirectory.trans runs.cr3.symm) child _) rfl
              (runs.pageDirectory.trans runs.cr3.symm) m ⟨⟨runs.running, rfl, runs.pageDirectory.trans runs.cr3.symm⟩, live⟩
          rintro m ⟨rfl, inside⟩
          cases x with
          | false =>
              exact follows_tidy (tidy_popChild p) (fun _ => follows_tidy (tidy_free buf)
                fun _ => stop) m inside
          | true =>
              refine follows_tidy (tidy_free buf) (fun _ => ?_) m inside
              simp only [↓reduceIte]
              rw [← bind_pure (forAll (fun _ => act (.malloc recordSize)) allocs)]
              refine Refines.bind (follows_records p allocs) fun x y => ?_
              rintro m ⟨rfl, inside⟩
              cases x with
              | true => exact Refines.ret (fun _ inside => ⟨rfl, inside⟩) m inside
              | false =>
                  exact follows_tidy (tidy_dropRecords p) (fun _ =>
                    follows_tidy (tidy_popChild p) fun _ => stop) m inside

theorem follows_giveUp (child : Nat) :
    Follows t (Inside t d) (giveUp child) (act (.destructPageDir child)) fun _ _ _ => True :=
  follows_then (follows_mem fun _ => trivial)

theorem follows_copyTcb (p child : Nat) (allocs : List (Nat × Int)) :
    Follows t (Inside t d) (copyTcb p child allocs) (finishProgram child allocs)
      fun _ _ _ => True := by
  refine follows_look (fun _ h => h.2) fun m₀ => ?_
  rintro m ⟨-, inside⟩
  refine Refines.bind (follows_pushTcb p _) (fun x y => ?_) m inside
  rintro m ⟨rfl, inside⟩
  cases x with
  | false =>
      exact follows_tidy (tidy_dropRecords p) (fun _ => follows_tidy (tidy_popChild p)
        fun _ => follows_giveUp child) m inside
  | true =>
      refine follows_tidy (tidy_newTid p) (fun tid => ?_) m inside
      refine Refines.bind (follows_malloc recordSize) fun x y => ?_
      rintro m ⟨rfl, inside⟩
      cases x with
      | none =>
          exact follows_tidy (tidy_popTcb p) (fun _ => follows_tidy (tidy_dropRecords p)
            fun _ => follows_tidy (tidy_popChild p) fun _ => follows_giveUp child) m inside
      | some node =>
          refine follows_note ?_ ?_ m inside
          · exact fun _ => ⟨rfl, rfl, rfl⟩
          · exact follows_then (follows_mem fun _ => trivial)

theorem follows_fork : Follows t (AtHome t d) fork Memory.fork fun _ _ _ => True := by
  refine Refines.bind (follows_onMemory (fun _ => trivial) trivial) fun x y => ?_
  rintro m ⟨rfl, home⟩
  split
  swap
  · exact Refines.ret (fun _ _ => trivial) m home
  rw [forkCtrlBlk_eq]
  refine follows_look (fun _ h => h.1.2) (fun m₀ => ?_) m home
  rintro m ⟨rfl, home⟩
  obtain ⟨p, thread⟩ := Option.isSome_iff_exists.mp home.1.2
  have cr3 := home.1.1.cr3
  refine Refines.bind follows_current (fun x y => ?_) m₀ home
  rintro m ⟨pr, rfl, rfl, rfl, inside⟩
  simp only [thread]
  refine Refines.bind (follows_mem (a := .constructPageDir) fun _ => trivial) (fun x y => ?_) m inside
  rintro m ⟨rfl, inside⟩
  cases x with
  | none => exact Refines.ret (fun _ _ => trivial) m inside
  | some child =>
      dsimp only
      rw [cr3]
      refine Refines.bind (follows_copyPcb p child pr.allocs) (fun x y => ?_) m inside
      rintro m ⟨rfl, inside⟩
      cases x with
      | true => exact follows_copyTcb p child pr.allocs m inside
      | false => exact follows_giveUp child m inside

/-! ### Exec -/

/-- A switch to another directory. -/
theorem follows_switch {α β : Type} {e : Nat} {k : Unit → KProgram α} {q : Program β}
    {Q : α → β → Machine → Prop} (next : Follows t (Inside t e) (k ()) q Q) :
    Follows t (Inside t d) (setPageDirectory e >>= fun _ => setCr3 e >>= k) q Q := by
  refine follows_ctl (J := fun m => m.running = t ∧ m.pageDirectory = e ∧ m.live = true)
    (fun _ h => h.2) ?_ ?_ ?_
  · exact fun _ => rfl
  · exact fun m h => ⟨h.1.running, rfl, h.2⟩
  refine follows_ctl (J := Inside t e) (fun _ h => h.2.2) ?_ ?_ next
  · exact fun _ => rfl
  · exact fun m h => ⟨⟨h.1, rfl, h.2.1⟩, h.2.2⟩

theorem follows_loadExecutable (elf : Option Elf) (name : List UInt8) (args : List (List UInt8)) :
    Follows t (AtHome t d) (loadExecutable elf name args)
      (Memory.loadExecutable (elf.map Elf.toImage) name args) fun _ _ _ => True := by
  cases elf with
  | none => exact Refines.ret fun _ _ => trivial
  | some elf =>
  refine follows_right fun pr dir => ?_
  refine Refines.bind (follows_mem (a := .constructPageDir) fun _ => trivial) fun x y => ?_
  rintro m ⟨rfl, inside⟩
  cases x with
  | none => exact Refines.ret (fun _ _ => trivial) m inside
  | some e =>
  refine Refines.bind (Q := fun x y m => x = y ∧ Inside t d m) ?_ (fun x y => ?_) m inside
  · rintro m ⟨runs, live⟩
    exact follows_lift (via_mallocs m.toCtl _) runs.cr3 runs.pageDirectory m ⟨runs, live⟩
  rintro m ⟨rfl, inside⟩
  cases x with
  | false => exact follows_then (follows_mem (a := .destructPageDir e) fun _ => trivial) m inside
  | true =>
  refine follows_look (fun _ h => h.2) (fun m₀ => ?_) m inside
  rintro m ⟨rfl, inside⟩
  have cr3 := inside.1.cr3
  refine follows_switch ?_ m₀ inside
  refine Refines.bind (Q := fun x y m => x = y ∧ Inside t e m) ?_ fun x y => ?_
  · rintro m ⟨runs, live⟩
    have works := works_loadImage m.cr3 elf.toImage args
    have via := via_of_works (c := m.toCtl) works
    rw [runs.cr3] at via
    exact follows_lift via runs.cr3 runs.pageDirectory m ⟨runs, live⟩
  rintro m ⟨rfl, inside⟩
  cases x with
  | none =>
      refine follows_switch (e := m₀.cr3) ?_ m inside
      exact follows_then (follows_mem (a := .destructPageDir e) fun _ => trivial)
  | some placed =>
      refine follows_note ?_ ?_ m inside
      · exact fun _ => ⟨rfl, rfl, rfl⟩
      refine Refines.bind (follows_mem (a := .newImage e _ placed) fun _ => trivial) fun x y => ?_
      rintro m ⟨-, inside⟩
      rw [cr3, ← dir]
      exact follows_then (follows_mem (a := .destructPageDir pr.dir) fun _ => trivial) m inside

theorem follows_exec (elf : Option Elf) (name : List UInt8) (args : List (List UInt8)) :
    Follows t (AtHome t d) (exec elf name args) (Memory.exec (elf.map Elf.toImage) name args)
      fun _ _ _ => True := by
  refine Refines.bind (follows_onMemory (a := .threadAliveCount) (fun _ => trivial) trivial)
    fun x y => ?_
  rintro m ⟨rfl, home⟩
  split
  · exact follows_loadExecutable elf name args m home
  · exact Refines.ret (fun _ _ => trivial) m home

/-! ### Runs of calls -/

/-- What a call does in the memory model. -/
def Call.kernel (physFrames : Nat) : Call → Program Unit
  | .load v => Memory.load v
  | .store v b => Memory.store v b
  | .pageFault present write v => faultProgram present write v
  | .newPages base len => Memory.newPages (base % virtualAddrEnd) len physFrames
  | .removePages base => Memory.removePages (base % virtualAddrEnd)
  | .fork => Memory.fork
  | .exec elf name args => Memory.exec (elf.map Elf.toImage) name args

theorem follows_call (physFrames : Nat) (call : Call) :
    Follows t (AtHome t d) (call.prog physFrames) (call.kernel physFrames) fun _ _ _ => True := by
  cases call with
  | load v => exact follows_load v
  | store v b => exact follows_store v b
  | pageFault present write v => exact follows_pageFault present write v
  | newPages base len => exact follows_then (follows_newPages _ len physFrames)
  | removePages base => exact follows_then (follows_removePages _)
  | fork => exact follows_then follows_fork
  | exec elf name args => exact follows_then (follows_exec elf name args)

theorem triple_faultProgram {full : Bool} (present write : Bool) (v : Nat) :
    (Memory.sys full).Triple t (Ready t) (faultProgram present write v) fun _ => Ready t :=
  triple_of_current (Triple.ret fun _ _ h => h) fun _ => triple_handlePageFault present write v

theorem triple_kernel (physFrames : Nat) (call : Call) :
    (Memory.sys false).Triple t (Ready t) (call.kernel physFrames) fun _ => Ready t := by
  cases call with
  | load v => exact triple_load_call v
  | store v b => exact triple_store_call v b
  | pageFault present write v => exact triple_faultProgram present write v
  | newPages base len => exact Memory.triple_newPages _ len physFrames
  | removePages base => exact Memory.triple_removePages _
  | fork => exact triple_fork
  | exec elf name args => exact triple_exec _ name args

/-- The kernel between two calls: its invariant holds, and every thread is where it is
between two programs. -/
structure Sound (s : Kernel) : Prop where
  inv : s.Inv false
  ready : ∀ t, Kernel.alive t s = true → Ready t s

theorem Sound.eval {s : Kernel} (sound : Sound s) (alive : Kernel.alive t s = true)
    {p : Program Unit} (triple : (Memory.sys false).Triple t (Ready t) p fun _ => Ready t) :
    Sound (s.eval t p).1 := by
  have safe := triple s sound.inv alive (sound.ready t alive)
  obtain ⟨inv, others, post, ends⟩ := safe.evalAmong (Kernel.Rely.refl t)
    (fun _ _ whole => by cases whole) sound.inv alive fun t' _ live => sound.ready t' live
  refine ⟨inv, fun t' live => ?_⟩
  by_cases same : t' = t
  · subst same
    obtain ⟨x, result⟩ := ends live
    exact post x result
  · exact others t' same live

/-- A thread that is alive between two calls has its directory in `%cr3` and in its
PCB. -/
def Machine.Home (m : Machine) : Prop := m.live = true → AtHome m.running m.cr3 m

theorem boot_sound {physFrames : Nat} (fits : physFrames ≤ virtualAddrEnd / pageSize)
    {oracle : Nat → Bool} {phys : Nat → UInt8} {ctl : Ctl} {m : Machine}
    (started : boot physFrames oracle phys ctl = some m) : Sound m.kernel ∧ m.Home := by
  obtain ⟨booted, running, pageDirectory, -, pr, proc, cr3⟩ := boot_spec started
  obtain ⟨inv, ready⟩ := boot_inv fits booted false
  refine ⟨⟨inv, fun t alive => ?_⟩, fun live => ⟨⟨⟨rfl, rfl, pageDirectory⟩, live⟩, ?_⟩⟩
  · obtain ⟨p, hp⟩ := Option.isSome_iff_exists.mp alive
    exact ready t p hp
  · rw [running, proc, cr3]
    rfl

theorem switchTo_kernel (m : Machine) (t : Nat) : (m.switchTo t).kernel = m.kernel := by
  unfold Machine.switchTo
  split
  · rfl
  · split <;> rfl

/-- After a context switch the thread runs in its own directory. -/
theorem switchTo_home {m : Machine} (home : m.Home) (sound : Sound m.kernel)
    (alive : Kernel.alive t m.kernel = true) :
    AtHome t (m.switchTo t).cr3 (m.switchTo t) ∧ (m.switchTo t).running = t := by
  unfold Machine.switchTo
  split
  · rename_i same
    subst same
    exact ⟨home alive, rfl⟩
  obtain ⟨p, hp⟩ := Option.isSome_iff_exists.mp alive
  obtain ⟨pr, proc⟩ := sound.inv.proc t p hp
  have proc' : m.kernel.proc t = some pr := by rw [Kernel.proc, hp, Option.bind_some, proc]
  rw [proc']
  exact ⟨⟨⟨⟨rfl, rfl, rfl⟩, alive⟩, congrArg (Option.map Proc.dir) proc'⟩, rfl⟩

/-- A step of the machine is a step of the memory model. -/
theorem step_kernel {physFrames : Nat} {m : Machine} (sound : Sound m.kernel) (home : m.Home)
    (i : Nat × Call) (alive : Kernel.alive i.1 m.kernel = true) :
    (step physFrames m i).kernel = (m.kernel.eval i.1 (i.2.kernel physFrames)).1 := by
  obtain ⟨start, -⟩ := switchTo_home home sound alive
  obtain ⟨m', out, ran, ran', -⟩ := follows_call physFrames i.2 (m.switchTo i.1) start
  rw [switchTo_kernel] at ran'
  rw [step, if_pos alive, Machine.eval, ran, Kernel.eval, ran']

theorem sound_step {physFrames : Nat} {m : Machine} (sound : Sound m.kernel) (home : m.Home)
    (i : Nat × Call) : Sound (step physFrames m i).kernel := by
  cases alive : Kernel.alive i.1 m.kernel with
  | true =>
      rw [step_kernel sound home i alive]
      exact sound.eval alive (triple_kernel physFrames i.2)
  | false => rwa [step, alive, if_neg (by simp)]

end OsKernel.Syscall
