/-
The life of a software exception handler: `handle` (`kern/interrupt.c`) and `handle_swexn`
(`kern/system_call.c`) over the three fields of a TCB that hold a registration, with what
`exec`, `fork` and `thread_fork` do to them.

A thread changes the fields of its own TCB only, so a call is one step, at the moment of the
change; a fault in the middle of a call is a step before it. What a handler asks of the rest
of the kernel comes with the input, as the answer it gets: the checks of pages, the number of
threads alive, `load_executable`, the copies of `fork`.

`standing` and `transfers` are bookkeeping, in the words of the interface: which registration
a thread has by the results of the calls, and what has been used when a handler was entered.
-/

import OsKernel.Lib.Run
import OsKernel.Machine.Privilege

namespace OsKernel.Swexn

open Run
open OsKernel.Privilege (Flags checkEflags segselKernelCs segselUserCs)

abbrev Word := BitVec 32

/-- `tid` -/
abbrev Thread := Nat

structure Registration where
  exceptionStack : Word
  handler : Word
  arg : Word
deriving DecidableEq

structure Tcb where
  pcb : Nat
  exceptionStack : Word
  handler : Word
  arg : Word
deriving DecidableEq

structure Kernel where
  tcbs : Thread → Option Tcb
  threadCount : Nat
  pcbCount : Nat
  /-- `guest` of the PCB. -/
  guest : Nat → Bool

/-- `init_ctrl_blk` -/
def Kernel.init : Kernel where
  tcbs := Function.update (fun _ => none) 0 (some ⟨0, 0, 0, 0⟩)
  threadCount := 1
  pcbCount := 1
  guest _ := false

def Kernel.setTcb (k : Kernel) (t : Thread) (tcb : Tcb) : Kernel :=
  { k with tcbs := Function.update k.tcbs t (some tcb) }

/-! ### The handlers -/

/-- `IDT_DE`, `IDT_NP` and `IDT_PF`. -/
def isFault (interrupt : Nat) : Bool := interrupt = 0 ∨ interrupt = 11 ∨ interrupt = 14

def timerIdtEntry : Nat := 0x20

def keyIdtEntry : Nat := 0x21

/-- Where `handle` goes. -/
inductive Route where
  | crashGuest
  | handleVirtualInterrupt
  /-- `wrap_user_provided_handler`, with its arguments. -/
  | user (used : Registration)
  /-- `handler_array`, and `fault_kill_thread` when it has no entry. -/
  | kernel
deriving DecidableEq

/-- A guest takes this interrupt as its own, or is stopped by it. -/
def guestRoute (interrupt cs : Nat) : Option Route :=
  if cs = segselKernelCs then
    if interrupt ≠ timerIdtEntry ∧ interrupt ≠ keyIdtEntry then some .crashGuest else none
  else some .handleVirtualInterrupt

/-- `handle` -/
def handle (k : Kernel) (t : Thread) (tcb : Tcb) (interrupt cs : Nat) : Kernel × Route :=
  match if k.guest tcb.pcb then guestRoute interrupt cs else none with
  | some route => (k, route)
  | none =>
      if isFault interrupt ∧ tcb.exceptionStack ≠ 0 then
        (k.setTcb t { tcb with exceptionStack := 0 },
          .user ⟨tcb.exceptionStack, tcb.handler, tcb.arg⟩)
      else (k, .kernel)

/-- The arguments of `swexn`, with the answers to its checks. -/
structure Packet where
  exceptionStack : Word
  handler : Word
  arg : Word
  /-- `is_writable` of the stack. -/
  writable : Bool
  /-- `is_readable` of the handler. -/
  readable : Bool
  /-- The new `ureg`, if there is one: `is_readable` of it, and its `eflags`. -/
  newUreg : Option (Bool × Flags)

/-- `exception_stack != NULL && handler != NULL` -/
def Packet.registers (p : Packet) : Prop := p.exceptionStack ≠ 0 ∧ p.handler ≠ 0

instance (p : Packet) : Decidable p.registers := inferInstanceAs (Decidable (_ ∧ _))

def Packet.success (p : Packet) (eflags : Flags) : Bool :=
  (p.registers → p.writable ∧ p.readable) ∧
    p.newUreg.all fun new => new.1 && checkEflags eflags new.2

/-- `handle_swexn`, and `%eax`. -/
def handleSwexn (k : Kernel) (t : Thread) (tcb : Tcb) (eflags : Flags) (p : Packet) :
    Kernel × Int :=
  if p.success eflags then
    if p.registers then
      (k.setTcb t { tcb with
        exceptionStack := p.exceptionStack, handler := p.handler, arg := p.arg }, 0)
    else (k.setTcb t { tcb with exceptionStack := 0 }, 0)
  else (k, -1)

/-- `handle_exec`, and whether it has loaded the program; `loaded` says whether that is a
guest. -/
def handleExec (k : Kernel) (t : Thread) (tcb : Tcb) (singleThreading : Bool)
    (loaded : Option Bool) : Kernel × Bool :=
  match singleThreading, loaded with
  | true, some guest =>
      ({ k.setTcb t { tcb with handler := 0 } with
        guest := Function.update k.guest tcb.pcb guest }, true)
  | _, _ => (k, false)

/-- `handle_fork` with `fork_ctrl_blk`, and `%eax`. The thread number is gone when there is
no memory for the last node. -/
def handleFork (k : Kernel) (tcb : Tcb) (copied node : Bool) : Kernel × Int :=
  if copied then
    let k' := { k with threadCount := k.threadCount + 1 }
    if node then
      ({ k'.setTcb k.threadCount { tcb with pcb := k.pcbCount } with
        pcbCount := k.pcbCount + 1
        guest := Function.update k.guest k.pcbCount false }, k.threadCount)
    else (k', -1)
  else (k, -1)

/-- `handle_thread_fork` with `thread_fork_ctrl_blk`, and `%eax`. -/
def handleThreadFork (k : Kernel) (tcb : Tcb) (copied node : Bool) : Kernel × Int :=
  if copied then
    let k' := { k with threadCount := k.threadCount + 1 }
    if node then (k'.setTcb k.threadCount { tcb with exceptionStack := 0 }, k.threadCount)
    else (k', -1)
  else (k, -1)

/-! ### Runs -/

inductive Input where
  | interrupt (t : Thread) (interrupt cs : Nat)
  | swexn (t : Thread) (eflags : Flags) (p : Packet)
  | exec (t : Thread) (singleThreading : Bool) (loaded : Option Bool)
  | fork (t : Thread) (copied node : Bool)
  | threadFork (t : Thread) (copied node : Bool)

def Input.thread : Input → Thread
  | .interrupt t .. | .swexn t .. | .exec t .. | .fork t .. | .threadFork t .. => t

def Input.isCall : Input → Bool
  | .interrupt .. => false
  | _ => true

/-- A handler is entered. -/
structure Transfer where
  used : Registration
  /-- What stands for the thread. -/
  standing : Option Registration
deriving DecidableEq

structure State where
  kernel : Kernel
  standing : Thread → Option Registration
  transfers : List Transfer

def State.init : State := ⟨.init, fun _ => none, []⟩

/-- What a successful `swexn` asks for. -/
def Packet.registration (p : Packet) : Option Registration :=
  if p.registers then some ⟨p.exceptionStack, p.handler, p.arg⟩ else none

namespace State

def interrupt (s : State) (t : Thread) (tcb : Tcb) (interrupt cs : Nat) : State :=
  match handle s.kernel t tcb interrupt cs with
  | (k, .user used) =>
      { kernel := k
        standing := Function.update s.standing t none
        transfers := s.transfers ++ [⟨used, s.standing t⟩] }
  | (k, _) => { s with kernel := k }

def swexn (s : State) (t : Thread) (tcb : Tcb) (eflags : Flags) (p : Packet) : State :=
  let result := handleSwexn s.kernel t tcb eflags p
  { s with
    kernel := result.1
    standing :=
      if result.2 = 0 then Function.update s.standing t p.registration else s.standing }

def exec (s : State) (t : Thread) (tcb : Tcb) (singleThreading : Bool) (loaded : Option Bool) :
    State :=
  let result := handleExec s.kernel t tcb singleThreading loaded
  { s with
    kernel := result.1
    standing := if result.2 then Function.update s.standing t none else s.standing }

/-- `fork` and `thread_fork`: what the new thread begins with. -/
def spawn (s : State) (result : Kernel × Int) (inherited : Option Registration) : State :=
  { s with
    kernel := result.1
    standing :=
      if 0 ≤ result.2 then Function.update s.standing result.2.toNat inherited else s.standing }

/-- What the thread with this TCB does. -/
def act (s : State) (tcb : Tcb) : Input → State
  | .interrupt t interrupt cs => s.interrupt t tcb interrupt cs
  | .swexn t eflags p => s.swexn t tcb eflags p
  | .exec t singleThreading loaded => s.exec t tcb singleThreading loaded
  | .fork t copied node => s.spawn (handleFork s.kernel tcb copied node) (s.standing t)
  | .threadFork _ copied node => s.spawn (handleThreadFork s.kernel tcb copied node) none

/-- The system calls of a guest go to its own kernel. -/
def step (s : State) (input : Input) : State :=
  match s.kernel.tcbs input.thread with
  | none => s
  | some tcb => if input.isCall ∧ s.kernel.guest tcb.pcb then s else s.act tcb input

end State

/-- A handler is entered only with the registration that stands. -/
def Due (s : State) : Prop := ∀ transfer ∈ s.transfers, transfer.standing = some transfer.used

/-- `handle` enters a handler. -/
def Enters (k : Kernel) (tcb : Tcb) (interrupt : Nat) : Prop :=
  k.guest tcb.pcb = false ∧ isFault interrupt = true ∧ tcb.exceptionStack ≠ 0

/-- The interrupt does not find a stack without a handler. -/
def HandlerSet (s : State) : Input → Prop
  | .interrupt t interrupt _ =>
      ∀ tcb, s.kernel.tcbs t = some tcb → Enters s.kernel tcb interrupt → tcb.handler ≠ 0
  | _ => True

/-! ### The fields of a TCB and what they stand for -/

/-- What the three fields stand for, in every state but the one that `exec` leaves. -/
def Tcb.registration (tcb : Tcb) : Option Registration :=
  if tcb.exceptionStack ≠ 0 ∧ tcb.handler ≠ 0 then
    some ⟨tcb.exceptionStack, tcb.handler, tcb.arg⟩
  else none

/-- The TCBs say which registrations stand. -/
def Agrees (s : State) : Prop := ∀ t, s.standing t = (s.kernel.tcbs t).bind Tcb.registration

section
variable {s : State} {t : Thread} {tcb : Tcb}

theorem registration_noStack (tcb : Tcb) :
    ({ tcb with exceptionStack := 0 } : Tcb).registration = none :=
  if_neg fun h => h.1 rfl

theorem registration_noHandler (tcb : Tcb) :
    ({ tcb with handler := 0 } : Tcb).registration = none :=
  if_neg fun h => h.2 rfl

/-- One TCB changes, and with it what stands for its thread. -/
theorem Agrees.set (agrees : Agrees s) (tcb : Tcb) (registration : Option Registration)
    (same : tcb.registration = registration) (u : Thread) :
    Function.update s.standing t registration u =
      ((s.kernel.setTcb t tcb).tcbs u).bind Tcb.registration := by
  rw [Kernel.setTcb]
  dsimp only
  by_cases self : u = t
  · rw [self, Function.update_self, Function.update_self, Option.bind_some, same]
  · rw [Function.update_of_ne self, Function.update_of_ne self]
    exact agrees u

/-- No fault of a guest gets past its own kernel. -/
theorem guestRoute_cases (interrupt cs : Nat) :
    (∃ route, guestRoute interrupt cs = some route ∧ ∀ used, route ≠ .user used) ∨
      guestRoute interrupt cs = none ∧ isFault interrupt = false := by
  unfold guestRoute
  split
  · split
    · exact .inl ⟨.crashGuest, rfl, nofun⟩
    · rename_i own
      refine .inr ⟨rfl, ?_⟩
      rcases Decidable.not_and_iff_not_or_not.mp own with timer | key
      · rw [Decidable.not_not.mp timer]
        rfl
      · rw [Decidable.not_not.mp key]
        rfl
  · exact .inl ⟨.handleVirtualInterrupt, rfl, nofun⟩

theorem handle_enters (k : Kernel) (t : Thread) (tcb : Tcb) (interrupt cs : Nat)
    (enters : Enters k tcb interrupt) :
    handle k t tcb interrupt cs = (k.setTcb t { tcb with exceptionStack := 0 },
      .user ⟨tcb.exceptionStack, tcb.handler, tcb.arg⟩) := by
  unfold handle
  rw [enters.1, if_neg Bool.false_ne_true]
  exact if_pos enters.2

theorem handle_other (k : Kernel) (t : Thread) (tcb : Tcb) (interrupt cs : Nat)
    (other : ¬ Enters k tcb interrupt) :
    ∃ route, handle k t tcb interrupt cs = (k, route) ∧ ∀ used, route ≠ .user used := by
  unfold handle
  cases guest : k.guest tcb.pcb with
  | true =>
      rw [if_pos rfl]
      rcases guestRoute_cases interrupt cs with ⟨route, is, notUser⟩ | ⟨is, notFault⟩
      · rw [is]
        exact ⟨route, rfl, notUser⟩
      · rw [is]
        refine ⟨.kernel, if_neg fun fault => ?_, nofun⟩
        rw [notFault] at fault
        cases fault.1
  | false =>
      rw [if_neg Bool.false_ne_true]
      exact ⟨.kernel, if_neg fun fault => other ⟨guest, fault⟩, nofun⟩

/-! ### Steps -/

theorem agrees_interrupt (agrees : Agrees s) (tcb : Tcb) (interrupt cs : Nat) :
    Agrees (s.interrupt t tcb interrupt cs) := by
  unfold State.interrupt
  by_cases enters : Enters s.kernel tcb interrupt
  · rw [handle_enters s.kernel t tcb interrupt cs enters]
    exact agrees.set _ none (registration_noStack tcb)
  · obtain ⟨route, is, notUser⟩ := handle_other s.kernel t tcb interrupt cs enters
    rw [is]
    cases route with
    | user used => exact absurd rfl (notUser used)
    | _ => exact agrees

theorem agrees_swexn (agrees : Agrees s) (tcb : Tcb) (eflags : Flags) (p : Packet) :
    Agrees (s.swexn t tcb eflags p) := by
  unfold State.swexn handleSwexn
  by_cases success : p.success eflags
  · rw [if_pos success]
    by_cases registers : p.registers
    · rw [if_pos registers]
      refine agrees.set _ p.registration ?_
      exact (if_pos registers).trans (if_pos registers).symm
    · rw [if_neg registers]
      refine agrees.set _ p.registration ?_
      exact (registration_noStack tcb).trans (if_neg registers).symm
  · rw [if_neg success]
    exact agrees

theorem agrees_exec (agrees : Agrees s) (tcb : Tcb) (singleThreading : Bool)
    (loaded : Option Bool) : Agrees (s.exec t tcb singleThreading loaded) := by
  cases singleThreading with
  | false => exact agrees
  | true => cases loaded with
      | none => exact agrees
      | some guest => exact agrees.set _ none (registration_noHandler tcb)

/-- A new thread, if there is one. -/
theorem agrees_spawn (agrees : Agrees s) (result : Kernel × Int)
    (inherited : Option Registration) (fails : result.2 < 0 → result.1.tcbs = s.kernel.tcbs)
    (succeeds : 0 ≤ result.2 → ∃ tcb : Tcb, tcb.registration = inherited ∧
      result.1.tcbs = Function.update s.kernel.tcbs result.2.toNat (some tcb)) :
    Agrees (s.spawn result inherited) := by
  unfold State.spawn
  intro u
  dsimp only
  split
  · rename_i nonneg
    obtain ⟨child, same, tcbs⟩ := succeeds nonneg
    rw [tcbs]
    exact agrees.set child inherited same u
  · rename_i negative
    rw [fails (Int.not_le.mp negative)]
    exact agrees u

theorem agrees_fork (agrees : Agrees s) (here : s.kernel.tcbs t = some tcb) (copied node : Bool) :
    Agrees (s.spawn (handleFork s.kernel tcb copied node) (s.standing t)) := by
  have inherited : tcb.registration = s.standing t := by
    rw [agrees t, here, Option.bind_some]
  unfold handleFork
  split
  · split
    · refine agrees_spawn agrees _ _ (fun negative => ?_)
        fun _ => ⟨{ tcb with pcb := s.kernel.pcbCount }, inherited, rfl⟩
      exact absurd (Int.natCast_nonneg s.kernel.threadCount) (Int.not_le.mpr negative)
    · exact agrees_spawn agrees _ _ (fun _ => rfl) fun nonneg => by cases nonneg
  · exact agrees_spawn agrees _ _ (fun _ => rfl) fun nonneg => by cases nonneg

theorem agrees_threadFork (agrees : Agrees s) (tcb : Tcb) (copied node : Bool) :
    Agrees (s.spawn (handleThreadFork s.kernel tcb copied node) none) := by
  unfold handleThreadFork
  split
  · split
    · refine agrees_spawn agrees _ _ (fun negative => ?_)
        fun _ => ⟨{ tcb with exceptionStack := 0 }, registration_noStack tcb, rfl⟩
      exact absurd (Int.natCast_nonneg s.kernel.threadCount) (Int.not_le.mpr negative)
    · exact agrees_spawn agrees _ _ (fun _ => rfl) fun nonneg => by cases nonneg
  · exact agrees_spawn agrees _ _ (fun _ => rfl) fun nonneg => by cases nonneg

theorem Agrees.step (agrees : Agrees s) (input : Input) : Agrees (s.step input) := by
  unfold State.step
  split
  · exact agrees
  · rename_i tcb here
    split
    · exact agrees
    · cases input with
      | interrupt t interrupt cs => exact agrees_interrupt agrees tcb interrupt cs
      | swexn t eflags p => exact agrees_swexn agrees tcb eflags p
      | exec t singleThreading loaded => exact agrees_exec agrees tcb singleThreading loaded
      | fork t copied node => exact agrees_fork agrees here copied node
      | threadFork t copied node => exact agrees_threadFork agrees tcb copied node

theorem step_of_none {input : Input} (none : s.kernel.tcbs input.thread = none) :
    s.step input = s := by
  unfold State.step
  rw [none]

theorem transfers_call {input : Input} (isCall : input.isCall = true) :
    (s.step input).transfers = s.transfers := by
  unfold State.step
  split
  · rfl
  · split
    · rfl
    · cases input with
      | interrupt => cases isCall
      | _ => rfl

theorem step_interrupt (here : s.kernel.tcbs t = some tcb) (interrupt cs : Nat) :
    s.step (.interrupt t interrupt cs) = s.interrupt t tcb interrupt cs := by
  unfold State.step
  rw [show s.kernel.tcbs (Input.interrupt t interrupt cs).thread = _ from here]
  exact if_neg fun call => by cases call.1

theorem transfers_enters (tcb : Tcb) {interrupt : Nat} (cs : Nat)
    (enters : Enters s.kernel tcb interrupt) :
    (s.interrupt t tcb interrupt cs).transfers =
      s.transfers ++ [⟨⟨tcb.exceptionStack, tcb.handler, tcb.arg⟩, s.standing t⟩] := by
  unfold State.interrupt
  rw [handle_enters s.kernel t tcb interrupt cs enters]

theorem transfers_other (tcb : Tcb) {interrupt : Nat} (cs : Nat)
    (other : ¬ Enters s.kernel tcb interrupt) :
    (s.interrupt t tcb interrupt cs).transfers = s.transfers := by
  unfold State.interrupt
  obtain ⟨route, is, notUser⟩ := handle_other s.kernel t tcb interrupt cs other
  rw [is]
  cases route with
  | user used => exact absurd rfl (notUser used)
  | _ => rfl

/-- With a handler in the TCB, what is used is what stands. -/
theorem due_step (agrees : Agrees s) (due : Due s) {input : Input} (meets : HandlerSet s input) :
    Due (s.step input) := by
  cases input with
  | interrupt t interrupt cs =>
      cases here : s.kernel.tcbs t with
      | none =>
          rw [step_of_none here]
          exact due
      | some tcb =>
          rw [step_interrupt here]
          by_cases enters : Enters s.kernel tcb interrupt
          · rw [Due, transfers_enters tcb cs enters]
            intro transfer mem
            rcases List.mem_append.mp mem with mem | new
            · exact due transfer mem
            · rw [List.mem_singleton.mp new, agrees t, here]
              exact if_pos ⟨enters.2.2, meets tcb here enters⟩
          · rw [Due, transfers_other tcb cs enters]
            exact due
  | _ =>
      rw [Due, transfers_call rfl]
      exact due

/-- Without one, nothing stands. -/
theorem handlerSet_of_due (agrees : Agrees s) {input : Input} (due : Due (s.step input)) :
    HandlerSet s input := by
  cases input with
  | interrupt t interrupt cs =>
      intro tcb here enters noHandler
      rw [step_interrupt here, Due, transfers_enters tcb cs enters] at due
      have standing := due _ (List.mem_append_right _ (List.mem_singleton_self _))
      rw [agrees t, here, Option.bind_some, Tcb.registration,
        if_neg fun h => h.2 noHandler] at standing
      cases standing
  | _ => trivial

end

/-! ### Every run -/

theorem agrees_init : Agrees .init := fun t => by
  rw [State.init, Kernel.init]
  dsimp only
  by_cases self : t = 0
  · rw [self, Function.update_self]
    rfl
  · rw [Function.update_of_ne self]
    rfl

theorem due_init : Due .init := nofun

/-- A run enters handlers only with what stands, if and only if no interrupt of it finds an
exception stack without a handler. -/
theorem transfers_due_iff (inputs : List Input) :
    Along State.step Due .init inputs ↔ StepsMeet State.step HandlerSet .init inputs := by
  constructor
  · exact stepsMeet_of_along_inv (I := Agrees) (fun _ _ agrees due => handlerSet_of_due agrees due)
      (fun _ input agrees _ => agrees.step input) agrees_init
  · exact along_of_stepsMeet (I := fun s => Agrees s ∧ Due s) (fun _ inv => inv.2)
      (fun _ input inv meets => ⟨inv.1.step input, due_step inv.1 inv.2 meets⟩)
      ⟨agrees_init, due_init⟩

/-- `swexn`, `exec` and a page fault. -/
def executedAfterSwexn : List Input :=
  [.swexn 0 0 ⟨0xffff0000, 0x1000000, 7, true, true, none⟩, .exec 0 true (some false),
    .interrupt 0 14 segselUserCs]

theorem enters_null : ¬ Along State.step Due .init executedAfterSwexn := by
  intro due
  have entered : (run State.step .init executedAfterSwexn).transfers =
      [⟨⟨0xffff0000, 0, 7⟩, none⟩] := by decide
  have standing := due.last ⟨⟨0xffff0000, 0, 7⟩, none⟩ (by rw [entered]; exact List.mem_cons_self)
  cases standing

end OsKernel.Swexn
