/-
At which privilege level user code runs.

A thread runs user code in a processor state (`Cpu`), or it is in the kernel with
the frame (`Frame`) that the last `iret` of its handler wrapper will load. The
frame comes from the entry into the kernel; `exec`, `hv_iret` and the delivery of
virtual interrupts rewrite it, `fork` and `thread_fork` copy it, and `swexn` loads
a frame of the user's own, of which `handle_swexn` checks the IOPL bits only
(`kern/system_call.c`, `kern/interrupt.c`, `kern/virtual_interrupt.c`,
`kern/execution_state.S`, `kern/context.S`).

A fault for which a handler is registered is delivered by
`wrap_user_provided_handler` (`kern/handler_wrapper.S`), which jumps to the handler
with no `iret` in between, so at privilege level 0.

The checks of user memory are inputs. The data segment registers are left out: a
selector that cannot be loaded is one more fault.
-/

import OsKernel.Lib.Run
import Mathlib.Logic.Function.Basic
import Mathlib.Tactic.Common

namespace OsKernel.Privilege

abbrev Flags := BitVec 32

/-- `EFL_IF` -/
def eflIf : Flags := 0x200#32

/-- `EFL_RESV1` -/
def eflResv1 : Flags := 0x2#32

/-- The IOPL bits, as `check_eflags` computes them: `EFL_IOPL_SHIFT` is 12 and
`IOPL_WIDTH` is 2. -/
def ioplMask : Flags := ~~~(((~~~0#32).sshiftRight 2) <<< 2) <<< 12

/-- `check_eflags` -/
def checkEflags (old new : Flags) : Bool := old &&& ioplMask = new &&& ioplMask

def Flags.interrupts (e : Flags) : Bool := e.getLsbD 9

/-- The flag that an `iret` at level 0 reads to enter virtual-8086 mode. -/
def Flags.virtual (e : Flags) : Bool := e.getLsbD 17

/-! ### Segments -/

def segselKernelCs : Nat := 0x10

def segselUserCs : Nat := 0x23

def segselUserDs : Nat := 0x2b

/-- `SEGSEL_GUEST_KERNEL_CS`, `SEGSEL_GUEST_KERNEL_DS`: the spare segments 0 and 1
with RPL 3. -/
def segselGuestKernelCs : Nat := 0x33

def segselGuestKernelDs : Nat := 0x3b

def rpl (selector : Nat) : Nat := selector % 4

/-- The DPL of the code segment a selector names in the GDT. -/
def codeDpl (selector : Nat) : Option Nat :=
  if selector / 4 % 2 = 1 then none
  else match selector % 65536 / 8 with
    | 2 => some 0
    | 4 | 6 | 8 => some 3
    | _ => none

/-- The selector names a data segment of level 3 in the GDT. -/
def UserData (selector : Nat) : Prop :=
  selector / 4 % 2 = 0 ∧ selector % 65536 / 8 ∈ [5, 7, 9] ∧ rpl selector = 3

instance (selector : Nat) : Decidable (UserData selector) :=
  inferInstanceAs (Decidable (_ ∧ _ ∧ _))

/-! ### The processor -/

/-- The part of a `ureg_t` that decides the privilege level. -/
structure Frame where
  cs : Nat
  eflags : Flags
  ss : Nat

structure Cpu extends Frame where
  cpl : Nat

/-- `iret` at privilege level 0; nothing is a general protection fault. -/
def iret (f : Frame) : Option Cpu :=
  if f.eflags.virtual then some { f with cpl := 3 }
  else match codeDpl f.cs with
    | none => none
    | some dpl =>
        if dpl ≠ rpl f.cs then none
        else if dpl = 0 ∨ UserData f.ss then some { f with cpl := dpl }
        else none

/-- What user code can make of the state it runs in: level 0 may change anything;
level 3 keeps IOPL and the mode, keeps IF unless its level is within IOPL, and
reaches code segments of its own level only. -/
def Cpu.Reaches (c : Cpu) (f : Frame) : Prop :=
  c.cpl = 0 ∨
    (f.eflags &&& ioplMask = c.eflags &&& ioplMask ∧
      f.eflags.virtual = c.eflags.virtual ∧
      (c.eflags &&& ioplMask ≠ ioplMask → f.eflags.interrupts = c.eflags.interrupts) ∧
      (c.eflags.virtual = false → f.cs = c.cs ∨ (codeDpl f.cs = some 3 ∧ rpl f.cs = 3)))

instance (c : Cpu) (f : Frame) : Decidable (c.Reaches f) :=
  inferInstanceAs (Decidable (_ ∨ _))

/-! ### Threads -/

inductive Mode where
  | user (cpu : Cpu)
  | kernel (frame : Frame)

structure Thread where
  mode : Mode
  /-- `exception_stack != NULL` -/
  registered : Bool := false
  guest : Bool := false

/-- The frame `load_executable` makes for a program or for a guest. -/
def entryFrame (guest : Bool) : Frame where
  cs := if guest then segselGuestKernelCs else segselUserCs
  eflags := eflIf ||| eflResv1
  ss := if guest then segselGuestKernelDs else segselUserDs

/-- The threads that are alive. -/
abbrev State := Nat → Option Thread

inductive Event where
  /-- User code runs, up to a state it can reach. -/
  | run (t : Nat) (f : Frame)
  /-- A system call, an interrupt, or a fault without a registered handler. -/
  | enter (t : Nat)
  | leave (t : Nat)
  /-- `swexn`: with a stack and a handler or without, with the outcome of their
  checks, and with a new `ureg` and the outcome of its check for readability. -/
  | swexn (t : Nat) (register checked : Bool) (new : Option (Frame × Bool))
  | fork (t child : Nat)
  | threadFork (t child : Nat)
  | exec (t : Nat) (guest : Bool)
  | hvIret (t : Nat) (eflags : Flags) (esp0 : Nat)
  | virtualInterrupt (t : Nat)
  /-- A division, segment or page fault, in user code or in the kernel. If no handler
  is registered it is repaired, or the thread is killed. -/
  | fault (t : Nat) (repaired : Bool)
  | vanish (t : Nat)

def Event.thread : Event → Nat
  | .run t _ | .enter t | .leave t | .swexn t .. | .fork t _ | .threadFork t _ | .exec t _
  | .hvIret t .. | .virtualInterrupt t | .fault t _ | .vanish t => t

/-- The frame a thread in the kernel will load, or the state it runs user code in. -/
def Mode.frame : Mode → Frame
  | .user cpu => cpu.toFrame
  | .kernel frame => frame

/-- `handle_swexn` accepts the new `ureg`. -/
def accepts (frame : Frame) (new : Frame × Bool) : Bool :=
  new.2 && checkEflags frame.eflags new.1.eflags

/-- `handle_swexn`: what becomes of the thread. -/
def swexn (th : Thread) (frame : Frame) (register checked : Bool) (new : Option (Frame × Bool)) :
    Option Thread :=
  if (register → checked) ∧ new.all (accepts frame) then
    match new with
    | none => some { th with registered := register }
    | some (f, _) => (iret f).map fun cpu => { th with registered := register, mode := .user cpu }
  else some th

/-- `wrap_user_provided_handler`: `jmp` to the handler. -/
def deliver (th : Thread) : Thread :=
  { th with registered := false
            mode := .user { th.mode.frame with cs := segselKernelCs, cpl := 0 } }

/-- `handle_hv_iret` -/
def hvIret (th : Thread) (frame : Frame) (eflags : Flags) (esp0 : Nat) : Option Thread :=
  if esp0 ≠ 0 ∨ checkEflags frame.eflags eflags = false then none
  else some { th with mode := .kernel { frame with eflags := eflags ||| eflIf } }

/-- `handle_virtual_interrupt` with an entry in the virtual IDT. -/
def virtualInterrupt (th : Thread) (frame : Frame) : Thread :=
  { th with mode := .kernel { frame with cs := segselGuestKernelCs, ss := segselGuestKernelDs } }

/-- The frame of a thread that is in a system call. In virtual-8086 mode, where
IOPL is below 3, the processor faults on the instruction that makes the call. -/
def Thread.call (th : Thread) : Option Frame :=
  match th.mode with
  | .kernel frame => if frame.eflags.virtual then none else some frame
  | .user _ => none

/-- A thread takes a step in user code. -/
def runUser (s : State) (t : Nat) (th : Thread) (f : Frame) : State :=
  match th.mode with
  | .user cpu =>
      if cpu.Reaches f then
        Function.update s t (some { th with mode := .user { f with cpl := cpu.cpl } })
      else s
  | .kernel _ => s

/-- What a thread that is alive does. -/
def act (s : State) (th : Thread) : Event → State
  | .run t f => runUser s t th f
  | .enter t => Function.update s t (some { th with mode := .kernel th.mode.frame })
  | .leave t => match th.mode with
      | .kernel frame =>
          Function.update s t ((iret frame).map fun cpu => { th with mode := .user cpu })
      | .user _ => s
  | .swexn t register checked new => match th.call with
      | some frame =>
          if th.guest then s else Function.update s t (swexn th frame register checked new)
      | none => s
  | .fork _ child => match th.call with
      | some _ => if (s child).isSome ∨ th.guest then s else Function.update s child (some th)
      | none => s
  | .threadFork _ child => match th.call with
      | some _ =>
          if (s child).isSome ∨ th.guest then s
          else Function.update s child (some { th with registered := false })
      | none => s
  | .exec t guest => match th.call with
      | some _ =>
          if th.guest then s
          else Function.update s t
            (some { th with mode := .kernel (entryFrame guest), guest := guest })
      | none => s
  | .hvIret t eflags esp0 => match th.call with
      | some frame => if th.guest then Function.update s t (hvIret th frame eflags esp0) else s
      | none => s
  | .virtualInterrupt t => match th.mode with
      | .kernel frame =>
          if th.guest then Function.update s t (some (virtualInterrupt th frame)) else s
      | .user _ => s
  | .fault t repaired =>
      if th.registered ∧ ¬ th.guest then Function.update s t (some (deliver th))
      else if repaired then s else Function.update s t none
  | .vanish t => match th.mode with
      | .kernel _ => Function.update s t none
      | .user _ => s

/-- One thread takes a step. -/
def step (s : State) (e : Event) : State :=
  match s e.thread with
  | none => s
  | some th => act s th e

/-- The two threads of `kernel_main`, on their way to `idle` and `init`. -/
def boot : State := fun t =>
  if t < 2 then some { mode := .kernel (entryFrame false) } else none

/-! ### What holds where user code runs -/

/-- Privilege level 3, interrupts enabled, IOPL 0, and a selector with RPL 3 (in
virtual-8086 mode `cs` is not a selector). -/
structure Cpu.Confined (c : Cpu) : Prop where
  level : c.cpl = 3
  interrupts : c.eflags.interrupts = true
  iopl : c.eflags &&& ioplMask = 0
  selector : c.eflags.virtual = false → rpl c.cs = 3

def Confined (s : State) : Prop := ∀ t th cpu, s t = some th → th.mode = .user cpu → cpu.Confined

/-- The step neither delivers a fault to a registered handler, nor loads a `ureg`
that `swexn` accepts and that has another level than 3 or interrupts disabled. -/
def KeepsLevel (s : State) (e : Event) : Prop :=
  ∀ th, s e.thread = some th → match e with
    | .fault .. => th.registered = false ∨ th.guest = true
    | .swexn _ register checked (some (f, readable)) => ∀ frame, th.call = some frame →
        th.guest = false → (register → checked) → accepts frame (f, readable) → (iret f).isSome → f.eflags.interrupts = true ∧ (f.eflags.virtual = false → rpl f.cs = 3)
    | _ => True

/-- The frames that are loaded into a confined state, if into any. -/
structure Frame.Safe (f : Frame) : Prop where
  interrupts : f.eflags.interrupts = true
  iopl : f.eflags &&& ioplMask = 0
  selector : f.eflags.virtual = false → rpl f.cs = 3

theorem Frame.Safe.iret {f : Frame} (safe : f.Safe) {cpu : Cpu} (h : iret f = some cpu) :
    cpu.Confined := by
  unfold Privilege.iret at h
  split at h
  · cases h
    exact ⟨rfl, safe.interrupts, safe.iopl, safe.selector⟩
  rename_i real
  split at h
  · cases h
  rename_i dpl hd
  split at h
  · cases h
  rename_i same
  split at h
  · cases h
    refine ⟨?_, safe.interrupts, safe.iopl, safe.selector⟩
    rw [not_not.mp same]
    exact safe.selector (by simpa using real)
  · cases h

theorem iret_frame {f : Frame} {cpu : Cpu} (h : iret f = some cpu) : cpu.toFrame = f := by
  unfold iret at h
  split at h
  · cases h
    rfl
  split at h
  · cases h
  split at h
  · cases h
  split at h
  · cases h
    rfl
  · cases h

theorem Cpu.Confined.safe {c : Cpu} (h : c.Confined) : c.toFrame.Safe :=
  ⟨h.interrupts, h.iopl, h.selector⟩

theorem safe_entryFrame (guest : Bool) : (entryFrame guest).Safe := by
  cases guest <;> exact ⟨by decide, by decide, fun _ => by decide⟩

/-- User code at level 3 stays confined. -/
theorem Cpu.Confined.reaches {c : Cpu} (h : c.Confined) {f : Frame} (reach : c.Reaches f) :
    Cpu.Confined { f with cpl := c.cpl } := by
  rcases reach with zero | ⟨iopl, virtual, flag, code⟩
  · rw [h.level] at zero
    cases zero
  refine ⟨h.level, ?_, iopl.trans h.iopl, fun real => ?_⟩
  · refine (flag ?_).trans h.interrupts
    rw [h.iopl]
    decide
  · rw [virtual] at real
    rcases code real with same | ⟨-, level⟩
    · exact (congrArg rpl same).trans (h.selector real)
    · exact level

/-- The frame or the state of a thread is safe. -/
def Thread.Safe (th : Thread) : Prop := match th.mode with
  | .user cpu => cpu.Confined
  | .kernel frame => frame.Safe

def Safe (s : State) : Prop := ∀ t th, s t = some th → th.Safe

theorem Safe.confined {s : State} (safe : Safe s) : Confined s := by
  intro t th cpu ht mode
  have := safe t th ht
  rwa [Thread.Safe, mode] at this

theorem Safe.update {s : State} (safe : Safe s) {t : Nat} {new : Option Thread}
    (h : ∀ th, new = some th → th.Safe) : Safe (Function.update s t new) := by
  intro u th hu
  by_cases same : u = t
  · rw [same, Function.update_self] at hu
    exact h th hu
  · rw [Function.update_of_ne same] at hu
    exact safe u th hu

/-- `handle_swexn` keeps a thread safe when the new `ureg` keeps the level. -/
theorem safe_swexn {th th' : Thread} {frame : Frame} {register checked : Bool}
    {new : Option (Frame × Bool)} (safe : th.Safe) (frameSafe : frame.Safe)
    (keeps : ∀ f readable, new = some (f, readable) → (register → checked) →
      accepts frame (f, readable) → (iret f).isSome →
      f.eflags.interrupts = true ∧ (f.eflags.virtual = false → rpl f.cs = 3))
    (h : swexn th frame register checked new = some th') : th'.Safe := by
  unfold swexn at h
  split at h
  swap
  · cases h
    exact safe
  rename_i ok
  cases new with
  | none =>
      cases h
      exact safe
  | some new =>
      obtain ⟨f, readable⟩ := new
      obtain ⟨cpu, loaded, rfl⟩ := Option.map_eq_some_iff.mp h
      have accepted : accepts frame (f, readable) := by simpa using ok.2
      obtain ⟨interrupts, selector⟩ := keeps f readable rfl ok.1 accepted (by rw [loaded]; rfl)
      have iopl : frame.eflags &&& ioplMask = f.eflags &&& ioplMask := by
        simp only [accepts, checkEflags, Bool.and_eq_true, decide_eq_true_eq] at accepted
        exact accepted.2
      have fSafe : f.Safe := ⟨interrupts, iopl.symm.trans frameSafe.iopl, selector⟩
      exact fSafe.iret loaded

theorem safe_hvIret {th th' : Thread} {frame : Frame} {eflags : Flags} {esp0 : Nat}
    (safe : frame.Safe) (real : frame.eflags.virtual = false) (h : hvIret th frame eflags esp0 = some th') : th'.Safe := by
  unfold hvIret at h
  split at h
  · cases h
  rename_i ok
  cases h
  rw [not_or, Bool.not_eq_false] at ok
  have iopl : frame.eflags &&& ioplMask = eflags &&& ioplMask := by
    simpa [checkEflags] using ok.2
  refine ⟨?_, ?_, fun _ => safe.selector real⟩
  · change (eflags ||| eflIf).getLsbD 9 = true
    rw [BitVec.getLsbD_or]
    simp [eflIf]
  · change (eflags ||| eflIf) &&& ioplMask = 0
    have apart : eflIf &&& ioplMask = 0 := by decide
    rw [BitVec.and_or_distrib_right, apart, ← iopl, safe.iopl]
    rfl

theorem Thread.call_eq {th : Thread} {frame : Frame} (h : th.call = some frame) :
    th.mode = .kernel frame ∧ frame.eflags.virtual = false := by
  unfold Thread.call at h
  split at h
  · split at h
    · cases h
    · rename_i mode real
      cases h
      exact ⟨mode, by simpa using real⟩
  · cases h

theorem Thread.Safe.frame {th : Thread} (safe : th.Safe) : th.mode.frame.Safe := by
  unfold Thread.Safe at safe
  cases h : th.mode with
  | user cpu =>
      rw [h] at safe
      exact safe.safe
  | kernel frame =>
      rw [h] at safe
      exact safe

theorem Thread.Safe.of_call {th : Thread} (safe : th.Safe) {frame : Frame}
    (h : th.call = some frame) : frame.Safe ∧ frame.eflags.virtual = false := by
  obtain ⟨mode, real⟩ := Thread.call_eq h
  have := safe.frame
  rw [mode] at this
  exact ⟨this, real⟩

/-- A step that keeps the level keeps every thread safe. -/
theorem Safe.step {s : State} (safe : Safe s) {e : Event} (keeps : KeepsLevel s e) :
    Safe (step s e) := by
  unfold Privilege.step
  cases alive : s e.thread with
  | none => exact safe
  | some th =>
  have here := safe _ th alive
  have keep := keeps th alive
  have one : ∀ {t th'}, th'.Safe → Safe (Function.update s t (some th')) := fun ok =>
    safe.update fun _ h => Option.some.inj h ▸ ok
  have gone : ∀ {t}, Safe (Function.update s t none) := safe.update fun _ h => by cases h
  cases e with
  | run t f =>
      simp only [act, runUser]
      split
      · rename_i cpu mode
        split
        · rename_i reach
          rw [Thread.Safe, mode] at here
          exact one (here.reaches reach)
        · exact safe
      · exact safe
  | enter t => exact one here.frame
  | leave t =>
      simp only [act]
      split
      · rename_i frame mode
        refine safe.update fun th' h => ?_
        obtain ⟨cpu, loaded, rfl⟩ := Option.map_eq_some_iff.mp h
        have frameSafe := here.frame
        rw [mode] at frameSafe
        exact frameSafe.iret loaded
      · exact safe
  | swexn t register checked new =>
      simp only [act]
      split
      · rename_i frame call
        split
        · exact safe
        · rename_i host
          refine safe.update fun th' h => safe_swexn here (here.of_call call).1 ?_ h
          rintro f readable rfl
          exact keep frame call (by simpa using host)
      · exact safe
  | fork t child =>
      simp only [act]
      split
      · split
        · exact safe
        · exact one here
      · exact safe
  | threadFork t child =>
      simp only [act]
      split
      · split
        · exact safe
        · exact one here
      · exact safe
  | exec t guest =>
      simp only [act]
      split
      · split
        · exact safe
        · exact one (safe_entryFrame guest)
      · exact safe
  | hvIret t eflags esp0 =>
      simp only [act]
      split
      · rename_i frame call
        obtain ⟨frameSafe, real⟩ := here.of_call call
        split
        · exact safe.update fun th' h => safe_hvIret frameSafe real h
        · exact safe
      · exact safe
  | virtualInterrupt t =>
      simp only [act]
      split
      · rename_i frame mode
        have frameSafe := here.frame
        rw [mode] at frameSafe
        split
        · have level : rpl segselGuestKernelCs = 3 := by decide
          have new : Thread.Safe (virtualInterrupt th frame) :=
            ⟨frameSafe.interrupts, frameSafe.iopl, fun _ => level⟩
          exact one new
        · exact safe
      · exact safe
  | fault t repaired =>
      simp only [act]
      split
      · rename_i delivered
        rcases keep with no | guest
        · rw [no] at delivered
          exact absurd delivered.1 Bool.false_ne_true
        · exact absurd guest delivered.2
      · split
        · exact safe
        · exact gone
  | vanish t =>
      simp only [act]
      split
      · exact gone
      · exact safe

/-- A step after which user code is confined keeps the level. -/
theorem keepsLevel_of_confined {s : State} {e : Event} (after : Confined (step s e)) :
    KeepsLevel s e := by
  intro th alive
  cases e with
  | fault t repaired =>
      by_contra deliver
      rw [not_or, Bool.not_eq_false, Bool.not_eq_true] at deliver
      have stepped : step s (.fault t repaired) = Function.update s t (some (Privilege.deliver th)) := by
        unfold step
        rw [alive]
        simp [act, deliver]
      rw [stepped] at after
      have := (after t _ _ (Function.update_self ..) rfl).level
      cases this
  | swexn t register checked new =>
      cases new with
      | none => trivial
      | some new =>
          obtain ⟨f, readable⟩ := new
          intro frame call host checks accepted lands
          obtain ⟨cpu, loaded⟩ := Option.isSome_iff_exists.mp lands
          have new : swexn th frame register checked (some (f, readable)) =
              some { th with registered := register, mode := .user cpu } := by
            rw [swexn, if_pos ⟨checks, accepted⟩]
            simp [loaded]
          have stepped : step s (.swexn t register checked (some (f, readable))) =
              Function.update s t (some { th with registered := register, mode := .user cpu }) := by
            unfold step
            rw [alive]
            simp only [act, call, host, Bool.false_eq_true, if_false, new]
          rw [stepped] at after
          have confined := (after t _ _ (Function.update_self ..) rfl).safe
          rw [iret_frame loaded] at confined
          exact ⟨confined.interrupts, confined.selector⟩
  | _ => trivial

/-- User code is confined all along a run if and only if every step keeps the
level. -/
theorem confined_iff (events : List Event) :
    Run.Along step Confined boot events ↔ Run.StepsMeet step KeepsLevel boot events := by
  constructor
  · exact Run.stepsMeet_of_along fun _ _ _ after => keepsLevel_of_confined after
  · refine Run.along_of_stepsMeet (I := Safe) (fun _ safe => safe.confined)
      (fun _ _ safe keeps => safe.step keeps) ?_
    intro t th ht
    unfold boot at ht
    split at ht
    · cases ht
      exact safe_entryFrame false
    · cases ht

/-- `init` enters the kernel and hands `swexn` a `ureg` with the code segment of the
kernel and interrupts disabled. -/
def loadKernelSegment : List Event :=
  [.leave 1, .enter 1, .swexn 1 false false (some (⟨segselKernelCs, eflResv1, 0⟩, true))]

/-- User code reaches privilege level 0 through `swexn`. -/
theorem user_code_at_level_zero :
    ∃ th cpu, Run.run step boot loadKernelSegment 1 = some th ∧ th.mode = .user cpu ∧
      cpu.cpl = 0 ∧ cpu.eflags.interrupts = false ∧
      ¬ Run.Along step Confined boot loadKernelSegment := by
  refine ⟨_, _, rfl, rfl, rfl, rfl, fun along => ?_⟩
  have level := (along.2.2.2 1 _ _ rfl rfl).level
  cases level

end OsKernel.Privilege
