/-
Switching between threads (`switch_context` of `kern/context_switcher.c`, on top of
`kern/context.S`).

Between two calls the thread that runs does whatever it does, in the kernel or in user mode: the
state of the machine at the next call is anything that leaves the threads that wait alone, that
is, their saved stack pointers and their stacks from there on. `alter_state` and `set_esp0`,
which `switch_context` calls first, are part of that. A thread is known by the address of its
TCB. `switches_run` is about every sequence of calls by any number of threads.
-/

import OsKernel.Lib.Run
import OsKernel.Machine.Context

namespace OsKernel.Switching

open OsKernel.Run OsKernel.Context

structure System where
  machine : Machine
  /-- The TCB of the thread that runs. -/
  current : Nat
  /-- The threads that wait in `save_and_load`, and how they have come there. -/
  waiting : Nat → Option Origin

inductive Event where
  /-- The thread that runs calls `switch_context`, which enters `save_and_load`, if it does, in
  this state of the machine; the detail may be NULL. -/
  | switchContext (target : Nat) (state : Int) (detail : Bool) (m : Machine)
  /-- It calls `save_ureg`, in this state of the machine. -/
  | saveUreg (t u : Nat) (m : Machine)
  /-- The TCB of a thread that has ended is freed. -/
  | free (t : Nat)

def newState : Int := 0

def waitingState : Int := 3

def terminatedState : Int := 4

/-- The checks of `switch_context`. -/
def accepts (target : Nat) (state : Int) (detail : Bool) : Bool :=
  target ≠ 0 ∧ newState ≤ state ∧ state ≤ terminatedState ∧ ¬ (state = waitingState ∧ detail = false)

/-- The machine after `save_and_load`, and after `way_to_user_mode` if it has returned there. -/
def switchTo (wayToUserMode : Nat) (m : Machine) : Machine :=
  if m.saveAndLoad.eip = wayToUserMode then m.saveAndLoad.wayToUserMode else m.saveAndLoad

namespace System

variable (wayToUserMode : Nat)

def step (s : System) : Event → System
  | .switchContext target state detail m =>
      if accepts target state detail then
        { machine := switchTo wayToUserMode m
          current := target
          waiting := Function.update (Function.update s.waiting s.current (some (.called m))) target none }
      else s
  | .saveUreg t u m =>
      { s with machine := m.saveUreg wayToUserMode
               waiting := Function.update s.waiting t (some (.forked (uregAt m.mem u))) }
  | .free t => { s with waiting := Function.update s.waiting t none }

/-! ### What the threads rely on -/

/-- The thread that runs leaves those that wait alone. -/
def Leaves (s : System) (mem : Nat → Nat) : Prop :=
  ∀ t o, s.waiting t = some o → ∀ a, a = t + 12 ∨ o.base t ≤ a ∧ a < t + 16400 →
    mem a = s.machine.mem a

/-- A thread that runs, or waits. -/
def Known (s : System) (t : Nat) : Prop := t = s.current ∨ ∃ o, s.waiting t = some o

/-- Two TCBs do not overlap. -/
def Apart (t t' : Nat) : Prop := t + 16400 ≤ t' ∨ t' + 16400 ≤ t

/-- A call as the kernel makes it: on the own kernel stack, for a thread that waits, and from
elsewhere than `way_to_user_mode`; a new thread has a TCB of its own, and registers of user
mode. -/
def Able (s : System) : Event → Prop
  | .switchContext target state detail m => accepts target state detail = true →
      s.Leaves m.mem ∧ Room s.current m ∧ m.mem (m.esp + 4) = s.current ∧
        m.mem (m.esp + 8) = target ∧ m.top ≠ wayToUserMode ∧ s.Known target
  | .saveUreg t u m => s.Leaves m.mem ∧ Room s.current m ∧ Machine.ForkCall t u m ∧
      (uregAt m.mem u).cs &&& 3 ≠ 0 ∧ ∀ t', s.Known t' → Apart t t'
  | .free _ => True

/-! ### What a switch is to do -/

/-- The thread that is switched in runs on from where it was, or starts in user mode. -/
def RunsOn (target : Nat) (m' : Machine) : Origin → Prop
  | .called m => Resumed target m m'
  | .forked u => Entered u m'

/-- The thread that is switched in, and its page directory. A call that fails does nothing. -/
def Switches (s : System) : Event → Prop
  | e@(.switchContext target state detail m) =>
      if accepts target state detail then
        (∀ o, Function.update s.waiting s.current (some (.called m)) target = some o →
          RunsOn target (s.step wayToUserMode e).machine o) ∧
        Names target m.cr3 (s.step wayToUserMode e).machine
      else s.step wayToUserMode e = s
  | _ => True

/-- The frames of the threads that wait. -/
structure Inv (s : System) : Prop where
  self : s.waiting s.current = none
  frame : ∀ t o, s.waiting t = some o → Frame wayToUserMode t s.machine.mem o
  called : ∀ t m, s.waiting t = some (.called m) → Room t m ∧ m.top ≠ wayToUserMode
  forked : ∀ t u, s.waiting t = some (.forked u) → u.cs &&& 3 ≠ 0
  apart : ∀ t t', s.Known t → s.Known t' → t ≠ t' → Apart t t'

/-! ### One step -/

variable {wayToUserMode : Nat} {s : System}

theorem Apart.symm {t t' : Nat} (apart : Apart t t') : Apart t' t := Or.symm apart

/-- A frame lies in its TCB, behind the thread and process fields. -/
theorem base_le {t : Nat} {o : Origin} (room : ∀ m, o = .called m → Room t m) : t + 12 ≤ o.base t := by
  cases o with
  | called m =>
      have below := (room m rfl).below
      rw [Origin.base]
      omega
  | forked u =>
      rw [Origin.base]
      omega

theorem Inv.room (inv : s.Inv wayToUserMode) {t : Nat} {o : Origin} (waits : s.waiting t = some o) :
    ∀ m, o = .called m → Room t m := by
  rintro m rfl
  exact (inv.called t m waits).1

/-- A thread that waits keeps its frame when only memory outside of its TCB changes. -/
theorem Inv.keep (inv : s.Inv wayToUserMode) {mem mem' : Nat → Nat} (leaves : s.Leaves mem) {t : Nat}
    {o : Origin} (waits : s.waiting t = some o)
    (same : ∀ a, t + 12 ≤ a → a < t + 16400 → mem' a = mem a) : Frame wayToUserMode t mem' o := by
  have low := base_le (inv.room waits)
  refine (inv.frame t o waits).congr (inv.room waits) fun a inside => ?_
  exact (same a (by omega) (by omega)).trans (leaves t o waits a inside)

/-- The thread that waits after a call is the caller, or waited before. -/
theorem waiting_switch {m : Machine} {target t : Nat} {o : Origin}
    (waits : Function.update (Function.update s.waiting s.current (some (.called m))) target none t =
      some o) : t = s.current ∧ o = .called m ∨ t ≠ s.current ∧ s.waiting t = some o := by
  have before : Function.update s.waiting s.current (some (.called m)) t = some o := by
    by_cases switched : t = target
    · rw [switched, Function.update_self] at waits
      cases waits
    · rwa [Function.update_of_ne switched] at waits
  by_cases own : t = s.current
  · rw [own, Function.update_self] at before
    cases before
    exact .inl ⟨own, rfl⟩
  · rw [Function.update_of_ne own] at before
    exact .inr ⟨own, before⟩

/-- After the caller has been saved every thread that waits has its frame. -/
theorem Inv.saved (inv : s.Inv wayToUserMode) {m : Machine} (leaves : s.Leaves m.mem)
    (room : Room s.current m) (own : m.mem (m.esp + 4) = s.current) {t : Nat} {o : Origin}
    (waits : t = s.current ∧ o = .called m ∨ t ≠ s.current ∧ s.waiting t = some o) :
    Frame wayToUserMode t m.save.mem o := by
  obtain ⟨frame, -, -, other⟩ := Machine.save_spec wayToUserMode room own
  rcases waits with ⟨rfl, rfl⟩ | ⟨ne, waits⟩
  · exact frame
  · have apart := inv.apart t s.current (.inr ⟨o, waits⟩) (.inl rfl) ne
    refine inv.keep leaves waits fun a low high => other a ?_
    unfold Apart at apart
    omega

theorem switchTo_spec {m : Machine} {target : Nat} {o : Origin} (arg : m.save.edx = target)
    (frame : Frame wayToUserMode target m.save.mem o)
    (called : ∀ e, o = .called e → Room target e ∧ e.top ≠ wayToUserMode)
    (forked : ∀ u, o = .forked u → u.cs &&& 3 ≠ 0) : RunsOn target (switchTo wayToUserMode m) o := by
  cases o with
  | called e =>
      obtain ⟨room, elsewhere⟩ := called e rfl
      have resumed := Machine.load_called arg room frame
      rw [switchTo, Machine.saveAndLoad, if_neg (fun same => elsewhere (resumed.eip.symm.trans same))]
      exact resumed
  | forked u =>
      obtain ⟨eip, esp, stacked⟩ := Machine.load_forked arg frame
      rw [switchTo, Machine.saveAndLoad, if_pos eip]
      exact Machine.wayToUserMode_spec (esp ▸ stacked) (forked u rfl)

theorem mem_switchTo (wayToUserMode : Nat) (m : Machine) : (switchTo wayToUserMode m).mem = m.save.mem ∧
    (switchTo wayToUserMode m).cr3 = m.saveAndLoad.cr3 := by
  rw [switchTo]
  split
  · exact Machine.mem_wayToUserMode m.saveAndLoad
  · exact ⟨rfl, rfl⟩

theorem Inv.switch (inv : s.Inv wayToUserMode) {target : Nat} {state : Int} {detail : Bool} {m : Machine}
    (accepted : accepts target state detail = true) (leaves : s.Leaves m.mem) (room : Room s.current m)
    (own : m.mem (m.esp + 4) = s.current) (elsewhere : m.top ≠ wayToUserMode) (known : s.Known target) :
    (s.step wayToUserMode (.switchContext target state detail m)).Inv wayToUserMode := by
  rw [step, if_pos accepted]
  have still : ∀ {t : Nat}, (t = target ∨ ∃ o, Function.update (Function.update s.waiting s.current
      (some (.called m))) target none t = some o) → s.Known t := by
    rintro t (rfl | ⟨o, waits⟩)
    · exact known
    · rcases waiting_switch waits with ⟨own, -⟩ | ⟨-, before⟩
      · exact .inl own
      · exact .inr ⟨o, before⟩
  refine ⟨Function.update_self _ _ _, fun t o waits => ?_, fun t e waits => ?_, fun t u waits => ?_,
    fun t t' k k' => inv.apart t t' (still k) (still k')⟩
  · rw [(mem_switchTo wayToUserMode m).1]
    exact inv.saved leaves room own (waiting_switch waits)
  · rcases waiting_switch waits with ⟨rfl, same⟩ | ⟨-, before⟩
    · cases same
      exact ⟨room, elsewhere⟩
    · exact inv.called t e before
  · rcases waiting_switch waits with ⟨-, same⟩ | ⟨-, before⟩
    · cases same
    · exact inv.forked t u before

theorem Inv.fork (inv : s.Inv wayToUserMode) {t u : Nat} {m : Machine} (leaves : s.Leaves m.mem)
    (room : Room s.current m) (call : Machine.ForkCall t u m) (user : (uregAt m.mem u).cs &&& 3 ≠ 0)
    (own : ∀ t', s.Known t' → Apart t t') :
    (s.step wayToUserMode (.saveUreg t u m)).Inv wayToUserMode := by
  obtain ⟨frame, other⟩ := Machine.saveUreg_spec wayToUserMode call
  have new : ∀ {t'}, s.Known t' → t' ≠ t := fun k same => by
    have apart := own _ k
    unfold Apart at apart
    omega
  have waiting : ∀ {t' o}, Function.update s.waiting t (some (.forked (uregAt m.mem u))) t' = some o →
      t' = t ∧ o = .forked (uregAt m.mem u) ∨ t' ≠ t ∧ s.waiting t' = some o := by
    intro t' o waits
    by_cases same : t' = t
    · rw [same, Function.update_self] at waits
      cases waits
      exact .inl ⟨same, rfl⟩
    · rw [Function.update_of_ne same] at waits
      exact .inr ⟨same, waits⟩
  refine ⟨?_, fun t' o waits => ?_, fun t' e waits => ?_, fun t' v waits => ?_, fun t' t'' k k' ne => ?_⟩
  · exact (Function.update_of_ne (new (.inl rfl)) _ _).trans inv.self
  · rcases waiting waits with ⟨rfl, rfl⟩ | ⟨ne, before⟩
    · exact frame
    · have apart := own t' (.inr ⟨o, before⟩)
      have mine := inv.apart t' s.current (.inr ⟨o, before⟩) (.inl rfl) fun same => by
        rw [same, inv.self] at before
        cases before
      have below := room.below
      have above := room.above
      refine inv.keep leaves before fun a low high => other a ?_ ?_ <;> unfold Apart at apart mine <;>
        omega
  · rcases waiting waits with ⟨-, same⟩ | ⟨-, before⟩
    · cases same
    · exact inv.called t' e before
  · rcases waiting waits with ⟨-, same⟩ | ⟨-, before⟩
    · cases same
      exact user
    · exact inv.forked t' v before
  · have split : ∀ {x}, Known (s.step wayToUserMode (.saveUreg t u m)) x → x = t ∨ s.Known x := by
      rintro x (rfl | ⟨o, waits⟩)
      · exact .inr (.inl rfl)
      · rcases waiting waits with ⟨same, -⟩ | ⟨-, before⟩
        · exact .inl same
        · exact .inr (.inr ⟨o, before⟩)
    rcases split k with rfl | known
    · rcases split k' with rfl | known'
      · exact absurd rfl ne
      · exact own t'' known'
    · rcases split k' with rfl | known'
      · exact (own t' known).symm
      · exact inv.apart t' t'' known known' ne

theorem Inv.free (inv : s.Inv wayToUserMode) (t : Nat) :
    (s.step wayToUserMode (.free t)).Inv wayToUserMode := by
  have waiting : ∀ {t' o}, Function.update s.waiting t none t' = some o → s.waiting t' = some o := by
    intro t' o waits
    by_cases same : t' = t
    · rw [same, Function.update_self] at waits
      cases waits
    · rwa [Function.update_of_ne same] at waits
  have still : ∀ {x}, Known (s.step wayToUserMode (.free t)) x → s.Known x := by
    rintro x (rfl | ⟨o, waits⟩)
    · exact .inl rfl
    · exact .inr ⟨o, waiting waits⟩
  refine ⟨?_, fun t' o waits => inv.frame t' o (waiting waits),
    fun t' e waits => inv.called t' e (waiting waits), fun t' u waits => inv.forked t' u (waiting waits),
    fun t' t'' k k' => inv.apart t' t'' (still k) (still k')⟩
  by_cases same : s.current = t
  · exact same ▸ Function.update_self _ _ _
  · exact (Function.update_of_ne same _ _).trans inv.self

theorem Inv.step (inv : s.Inv wayToUserMode) {e : Event} (able : s.Able wayToUserMode e) :
    (s.step wayToUserMode e).Inv wayToUserMode := by
  cases e with
  | switchContext target state detail m =>
      by_cases accepted : accepts target state detail = true
      · obtain ⟨leaves, room, own, -, elsewhere, known⟩ := able accepted
        exact inv.switch accepted leaves room own elsewhere known
      · rw [System.step, if_neg accepted]
        exact inv
  | saveUreg t u m =>
      obtain ⟨leaves, room, call, user, own⟩ := able
      exact inv.fork leaves room call user own
  | free t => exact inv.free t

/-- A switch does what it is to do. -/
theorem Inv.switches (inv : s.Inv wayToUserMode) {e : Event} (able : s.Able wayToUserMode e) :
    s.Switches wayToUserMode e := by
  cases e with
  | switchContext target state detail m =>
      rw [Switches]
      split
      swap
      · rename_i refused
        exact if_neg refused
      rename_i accepted
      obtain ⟨leaves, room, own, arg, elsewhere, known⟩ := able accepted
      obtain ⟨-, edx, cr3, -⟩ := Machine.save_spec wayToUserMode room own
      rw [System.step, if_pos accepted]
      refine ⟨fun o waits => ?_, ?_⟩
      · have which : target = s.current ∧ o = .called m ∨ target ≠ s.current ∧ s.waiting target = some o := by
          by_cases own : target = s.current
          · rw [own, Function.update_self] at waits
            cases waits
            exact .inl ⟨own, rfl⟩
          · rw [Function.update_of_ne own] at waits
            exact .inr ⟨own, waits⟩
        refine switchTo_spec (edx.trans arg) (inv.saved leaves room own which) ?_ ?_
        · rintro e rfl
          rcases which with ⟨rfl, same⟩ | ⟨-, before⟩
          · cases same
            exact ⟨room, elsewhere⟩
          · exact inv.called target e before
        · rintro u rfl
          rcases which with ⟨-, same⟩ | ⟨-, before⟩
          · cases same
          · exact inv.forked target u before
      · have names := Machine.names_load (m := m.save)
        rw [edx, arg, cr3] at names
        obtain ⟨mem, cr3'⟩ := mem_switchTo wayToUserMode m
        refine ⟨?_, ?_⟩ <;> dsimp only <;> rw [mem, cr3']
        · exact names.page
        · exact names.bits
  | saveUreg t u m => trivial
  | free t => trivial

/-! ### Whole runs -/

/-- One thread runs, and none waits. -/
def start (m : Machine) (current : Nat) : System := ⟨m, current, fun _ => none⟩

theorem Inv.start (m : Machine) (current : Nat) : (start m current).Inv wayToUserMode where
  self := rfl
  frame := nofun
  called := nofun
  forked := nofun
  apart := by
    rintro t t' (rfl | ⟨o, waits⟩) (rfl | ⟨o', waits'⟩) ne
    · exact absurd rfl ne
    all_goals contradiction

/-- In every sequence of calls, by any number of threads, every thread that is switched in runs
on from its own call, or starts in user mode, with the page directory of its process. -/
theorem switches_run {m : Machine} {current : Nat} {events : List Event}
    (able : StepsMeet (step wayToUserMode) (fun s e => s.Able wayToUserMode e) (start m current) events) :
    StepsMeet (step wayToUserMode) (fun s e => s.Switches wayToUserMode e) (start m current) events :=
  stepsMeet_of_stepsMeet (fun _ _ inv able => inv.switches able) (fun _ _ inv able => inv.step able)
    (Inv.start m current) able

/-! ### There and back -/

/-- The first thread, in a call of `save_ureg` for the TCB at 3 MB with the registers at the top of
its own kernel stack; its TCB is at 2 MB. -/
def forking : Machine where
  eax := 0
  ecx := 0
  edx := 0
  ebx := 0
  esp := 0x200000 + 16000
  ebp := 0
  esi := 0
  edi := 0
  eflags := 0x2
  eip := 0
  cr3 := 0
  ds := 0
  es := 0
  fs := 0
  gs := 0
  cs := 0x10
  ss := 0x18
  mem a :=
    if a = 0x200000 + 16004 then 0x300000
    else if a = 0x200000 + 16008 then 0x200000 + 16320
    else if a = 0x200000 + 16320 + 64 then 0x23
    else 0

/-- A call of `save_and_load` with 7 in `%eax`. -/
def calling (m : Machine) (original target : Nat) : Machine :=
  { m with
    eax := 7
    esp := original + 16000
    mem := Function.update (Function.update (Function.update m.mem (original + 16000) 0x1000)
      (original + 16004) original) (original + 16008) target }

def afterFork : System := (start forking 0x200000).step 0x100 (.saveUreg 0x300000 (0x200000 + 16320) forking)

def away : Machine := calling afterFork.machine 0x200000 0x300000

def there : System := afterFork.step 0x100 (.switchContext 0x300000 1 true away)

def back : Machine := calling there.machine 0x300000 0x200000

theorem mem_calling (m : Machine) (original target : Nat) {a : Nat}
    (outside : a < original + 16000 ∨ original + 16400 ≤ a) : (calling m original target).mem a = m.mem a := by
  rw [calling]
  dsimp only
  rw [Function.update_of_ne (by omega), Function.update_of_ne (by omega),
    Function.update_of_ne (by omega)]

theorem calling_frame (m : Machine) (original target : Nat) :
    (calling m original target).mem (original + (16000 + 4)) = original ∧
      (calling m original target).mem (original + (16000 + 8)) = target ∧
      (calling m original target).top = 0x1000 := by
  have mem : (calling m original target).mem = Function.update (Function.update
    (Function.update m.mem (original + 16000) 0x1000) (original + 16004) original) (original + 16008)
    target := rfl
  have esp : (calling m original target).esp = original + 16000 := rfl
  rw [Machine.top, mem, esp]
  refine ⟨?_, Function.update_self _ _ _, ?_⟩
  · rw [Function.update_of_ne (by omega)]
    exact Function.update_self _ _ _
  · rw [Function.update_of_ne (by omega), Function.update_of_ne (by omega), Function.update_self]

/-- Such a call is one that the kernel makes. -/
theorem able_calling (inv : s.Inv 0x100) {target : Nat} {detail : Bool} (known : s.Known target) :
    s.Able 0x100 (.switchContext target 1 detail (calling s.machine s.current target)) := by
  intro _
  obtain ⟨original, arg, ret⟩ := calling_frame s.machine s.current target
  have esp : (calling s.machine s.current target).esp = s.current + 16000 := rfl
  refine ⟨fun t o waits a inside => ?_, ⟨?_, ?_⟩, ?_, ?_, ?_, known⟩
  · have apart := inv.apart t s.current (.inr ⟨o, waits⟩) (.inl rfl) fun same => by
      rw [same, inv.self] at waits
      cases waits
    have low := base_le (inv.room waits)
    refine mem_calling s.machine s.current target ?_
    unfold Apart at apart
    omega
  · rw [esp]
    omega
  · rw [esp]
    omega
  · rw [esp, Nat.add_assoc]
    exact original
  · rw [esp, Nat.add_assoc]
    exact arg
  · rw [ret]
    decide

theorem able_forking : (start forking 0x200000).Able 0x100
    (.saveUreg 0x300000 (0x200000 + 16320) forking) := by
  refine ⟨nofun, ⟨by decide, by decide⟩, ⟨rfl, rfl, by decide, by decide, by decide, by decide⟩,
    by decide, ?_⟩
  rintro t (rfl | ⟨o, waits⟩)
  · exact .inr (by decide)
  · cases waits

theorem waiting_called {target : Nat} {state : Int} {detail : Bool} {m : Machine}
    (accepted : accepts target state detail = true) (other : s.current ≠ target) :
    (s.step wayToUserMode (.switchContext target state detail m)).waiting s.current =
      some (.called m) := by
  rw [step, if_pos accepted]
  exact (Function.update_of_ne other _ _).trans (Function.update_self _ _ _)

theorem waiting_forked {t u : Nat} {m : Machine} :
    (s.step wayToUserMode (.saveUreg t u m)).waiting t = some (.forked (uregAt m.mem u)) :=
  Function.update_self _ _ _

theorem waiting_away : there.waiting 0x200000 = some (.called away) :=
  waiting_called (s := afterFork) (by decide) (by decide)

theorem able_run : StepsMeet (step 0x100) (fun s e => s.Able 0x100 e) (start forking 0x200000)
    [.saveUreg 0x300000 (0x200000 + 16320) forking, .switchContext 0x300000 1 true away,
      .switchContext 0x200000 1 true back] := by
  have inv := (Inv.start forking 0x200000).step able_forking
  have first : afterFork.Able 0x100 (.switchContext 0x300000 1 true away) :=
    able_calling inv (.inr ⟨_, waiting_forked⟩)
  have second : there.Able 0x100 (.switchContext 0x200000 1 true back) :=
    able_calling (inv.step first) (.inr ⟨_, waiting_away⟩)
  exact ⟨able_forking, first, second, trivial⟩

theorem switches_run_back : StepsMeet (step 0x100) (fun s e => s.Switches 0x100 e)
    (start forking 0x200000) [.saveUreg 0x300000 (0x200000 + 16320) forking,
      .switchContext 0x300000 1 true away, .switchContext 0x200000 1 true back] :=
  switches_run able_run

/-- The first thread had 7 in `%eax` when it called `save_and_load`, and runs on with the address
of its TCB there. -/
theorem eax_changed : StepsMeet (step 0x100) (fun s e => s.Able 0x100 e) (start forking 0x200000)
      [.saveUreg 0x300000 (0x200000 + 16320) forking, .switchContext 0x300000 1 true away,
        .switchContext 0x200000 1 true back] ∧
    away.eax = 7 ∧ (there.step 0x100 (.switchContext 0x200000 1 true back)).machine.eax = 0x200000 := by
  have run := able_run
  have inv := ((Inv.start forking 0x200000).step run.1).step run.2.1
  have switched : Resumed 0x200000 away
      (there.step 0x100 (.switchContext 0x200000 1 true back)).machine :=
    (inv.switches run.2.2.1).1 (.called away)
      ((Function.update_of_ne (by decide) _ _).trans waiting_away)
  exact ⟨run, rfl, switched.eax.trans (calling_frame afterFork.machine 0x200000 0x300000).1⟩

end System

end OsKernel.Switching
