/-
`handle_virtual_interrupt` and the handlers of the hypervisor calls
(`kern/virtual_interrupt.c`), with `push_val` (`kern/loader.c`).

A handler reads its arguments from the stack of the guest, at `esp + userMemStart`, and
guest addresses are moved by `userMemStart`; all of it is arithmetic on `uint32_t`. A
handler answers with what it comes to: the source has no such value, it only returns.
-/

import OsKernel.Guest.Machine
import OsKernel.Machine.Privilege

namespace OsKernel.Guest

open OsKernel.Vm Prog
open OsKernel.Privilege (checkEflags eflIf segselGuestKernelCs segselGuestKernelDs)

/-- `USER_MEM_START` -/
def base : Word := .ofNat 32 userMemStart

def loadWord (v : Word) : Program Word := do
  let b₀ ← act (.load v)
  let b₁ ← act (.load (v + 1))
  let b₂ ← act (.load (v + 2))
  let b₃ ← act (.load (v + 3))
  pure (ofBytes b₀ b₁ b₂ b₃)

def storeBytes (v : Word) : List Byte → Program Unit
  | [] => pure ()
  | b :: bs => do
      act (.store v b)
      storeBytes (v + 1) bs

/-- Where `arg_array[i]` is read. -/
def argAddr (u : Ureg) (i : Nat) : Word := u.esp + base + 4 * .ofNat 32 i

/-- `arg_array[i]` -/
def arg (u : Ureg) (i : Nat) : Program Word := loadWord (argAddr u i)

/-- `crash_guest`: as if the guest had called `hv_exit`. -/
def crashGuest : Program Unit := act (.vanish Host.guestCrashStatus)

/-! ### Hypervisor calls -/

/-- `HV_MAGIC` -/
def hvMagic : Word := 0xC001C0DE

/-- `HV_PRINT_MAX` -/
def hvPrintMax : Int := 410

def handleHvMagic (_ : Ureg) : Program Unit := act (.setUreg fun u => { u with eax := hvMagic })

def handleHvExit (u : Ureg) : Program Unit := do
  let status ← arg u 0
  act (.vanish status)

def handleHvIret (u : Ureg) : Program Unit := do
  let eip ← arg u 0
  let eflags ← arg u 1
  let esp ← arg u 2
  let esp0 ← arg u 3
  let eax ← arg u 4
  if esp0 ≠ 0 ∨ checkEflags u.eflags eflags = false then crashGuest
  else do
    act (.setUreg fun u => { u with eip := eip, eflags := eflags ||| eflIf })
    act (.setFlag (eflags &&& eflIf != 0))
    act (.setUreg fun u => { u with esp := esp, eax := eax })

/-- What `hv_setidt` stores for a handler at this guest address. -/
def idtEntry (eip : Word) : Word := if eip = 0 then 0 else eip + base

/-- `handle_hv_setidt` after its arguments are read; `irqno` is compared as an `int`. -/
def setidt (irqno eip : Word) : Program Unit :=
  if irqno.toInt < virtualIdtLen then act (.setHandler irqno (idtEntry eip)) else pure ()

def handleHvSetidt (u : Ureg) : Program Unit := do
  let irqno ← arg u 0
  let eip ← arg u 1
  setidt irqno eip

def handleHvDisableInterrupts (_ : Ureg) : Program Unit := act (.setFlag false)

def handleHvEnableInterrupts (_ : Ureg) : Program Unit := act (.setFlag true)

/-- `putbytes` of `n` characters. -/
def putbytes (v : Word) : Nat → Program Unit
  | 0 => pure ()
  | n + 1 => do
      let ch ← act (.load v)
      let _ ← act (.console fun c => (c.putbyte ch, 0))
      putbytes (v + 1) n

/-- The check that `hv_print` and `hv_print_at` make of their buffer. -/
def printable (len buf : Word) : Bool :=
  0 ≤ len.toInt ∧ len.toInt ≤ hvPrintMax ∧ Host.isHostReadable buf len.toInt.toNat

def handleHvPrint (u : Ureg) : Program Unit := do
  let len ← arg u 0
  let buf ← arg u 1
  if printable len (buf + base) then putbytes (buf + base) len.toInt.toNat
  else crashGuest

/-- `0` for success, as the console driver returns it, and a negative number otherwise. -/
def result (out : Console × Bool) : Console × Int := (out.1, if out.2 then 0 else -1)

def handleHvConsSetTermColor (u : Ureg) : Program Unit := do
  let color ← arg u 0
  if (← act (.console fun c => result (c.setTermColor color.toInt))) < 0 then crashGuest
  else pure ()

def handleHvConsSetCursorPos (u : Ureg) : Program Unit := do
  let row ← arg u 0
  let col ← arg u 1
  if (← act (.console fun c => result (c.setCursor row.toInt col.toInt))) < 0 then crashGuest
  else pure ()

def handleHvConsGetCursorPos (u : Ureg) : Program Unit := do
  let row ← arg u 0
  let col ← arg u 1
  if ← act (.isHostWritable (row + base) 4) then
    if ← act (.isHostWritable (col + base) 4) then
      let cursorRow ← act (.console fun c => (c, c.row))
      storeBytes (row + base) (bytesOf (.ofInt 32 cursorRow))
      let cursorCol ← act (.console fun c => (c, c.col))
      storeBytes (col + base) (bytesOf (.ofInt 32 cursorCol))
    else crashGuest
  else crashGuest

def handleHvPrintAt (u : Ureg) : Program Unit := do
  let len ← arg u 0
  let buf ← arg u 1
  let row ← arg u 2
  let col ← arg u 3
  let color ← arg u 4
  if printable len (buf + base) then do
    let oldRow ← act (.console fun c => (c, c.row))
    let oldCol ← act (.console fun c => (c, c.col))
    let oldColor ← act (.console fun c => (c, c.getTermColor))
    let restore : Program Unit := do
      let _ ← act (.console fun c => result (c.setCursor oldRow oldCol))
      let _ ← act (.console fun c => result (c.setTermColor oldColor))
      pure ()
    if (← act (.console fun c => result (c.setCursor row.toInt col.toInt))) < 0 then do
      restore
      crashGuest
    else if (← act (.console fun c => result (c.setTermColor color.toInt))) < 0 then do
      restore
      crashGuest
    else do
      putbytes (buf + base) len.toInt.toNat
      restore
  else crashGuest

/-- `handle_hv_setpd` and `handle_hv_adjustpg` -/
def handleHvSetpd (_ : Ureg) : Program Unit := crashGuest
def handleHvAdjustpg (_ : Ureg) : Program Unit := crashGuest

/-- `hvcall_handler_array`, by the numbers of `spec/hvcall_int.h`. -/
def hvcallHandlerArray : Nat → Option (Ureg → Program Unit)
  | 0x00 => some handleHvMagic
  | 0x01 => some handleHvExit
  | 0x02 => some handleHvIret
  | 0x03 => some handleHvSetidt
  | 0x04 => some handleHvDisableInterrupts
  | 0x05 => some handleHvEnableInterrupts
  | 0x06 => some handleHvSetpd
  | 0x07 => some handleHvAdjustpg
  | 0x08 => some handleHvPrint
  | 0x09 => some handleHvConsSetTermColor
  | 0x0A => some handleHvConsSetCursorPos
  | 0x0B => some handleHvConsGetCursorPos
  | 0x0C => some handleHvPrintAt
  | _ => none

/-! ### Virtual interrupts -/

/-- `map_and_clear`, with `zero_frame` false. -/
def mapAndClear (addr : Word) (size : Nat) : Program Bool :=
  forAll (fun v => act (.mapAndClear (.ofNat 32 v))) (Memory.pagesOf addr.toNat size)

/-- `push_val`: the new stack pointer, if it succeeds. A value that does not fill its
words is followed by zeros. -/
def pushVal (esp : Word) (val : List Byte) : Program (Option Word) :=
  if val = [] then pure (some esp)
  else do
    let newEsp := (esp - .ofNat 32 val.length) / 4 * 4
    if ← mapAndClear newEsp (esp - newEsp).toNat then
      storeBytes newEsp val
      storeBytes (newEsp + .ofNat 32 val.length)
        (List.replicate (esp - newEsp - .ofNat 32 val.length).toNat 0)
      pure (some newEsp)
    else pure none

/-- A row of pushes, up to the first that fails. -/
def pushWords (esp : Word) : List Word → Program (Option Word)
  | [] => pure (some esp)
  | w :: ws => do
      match ← pushVal esp (bytesOf w) with
      | some esp => pushWords esp ws
      | none => pure none

/-- `HV_INT` -/
def hvInt : Word := 0xDE

/-- `TIMER_IDT_ENTRY` and `KEY_IDT_ENTRY` -/
def timerIdtEntry : Word := 0x20
def keyIdtEntry : Word := 0x21

/-- `IDT_GP` and `IDT_PF` -/
def idtGp : Word := 13
def idtPf : Word := 14

/-- `SEGSEL_GUEST_KERNEL_CS` and `SEGSEL_GUEST_KERNEL_DS` -/
def guestKernelCs : Word := .ofNat 32 segselGuestKernelCs
def guestKernelDs : Word := .ofNat 32 segselGuestKernelDs

/-- `GUEST_INTERRUPT_UMODE` and `GUEST_INTERRUPT_KMODE` -/
def guestInterruptUmode : Word := 0x13370000
def guestInterruptKmode : Word := 0x00001337

/-- How `handle_virtual_interrupt` returns. -/
inductive Outcome where
  | hypercall
  /-- Virtual interrupts are disabled. -/
  | suspended
  | delivered
  | crashed
deriving DecidableEq

/-- The words above `eip` in the frame, and where they go. The flag of virtual interrupts
takes the place of `EFL_IF`. -/
def pushMode (u : Ureg) (eflags : Word) : Program (Option Word) := do
  if u.cs ≠ guestKernelCs then
    let esp0 ← act .esp0
    pushWords esp0 [u.esp, eflags, guestInterruptUmode]
  else pushWords (u.esp + base) [eflags, guestInterruptKmode]

/-- The error code of the frame; `key` is the event of `process_scancode`. -/
def errCode (u : Ureg) (key : Word) : Word :=
  if u.cause = idtGp ∨ u.cause = idtPf then u.errorCode
  else if u.cause = keyIdtEntry then key
  else 0

def faultingAddr (u : Ureg) : Word := if u.cause = idtPf then u.cr2 - base else 0

/-- The delivery of an interrupt to the handler that the guest has installed. -/
def deliver (u : Ureg) (key : Word) : Program Outcome := do
  let eflags := if ← act .flag then u.eflags ||| eflIf else u.eflags &&& ~~~eflIf
  act (.setFlag false)
  match ← pushMode u eflags with
  | none => do
      crashGuest
      pure .crashed
  | some esp => do
      match ← pushWords esp [u.eip, errCode u key, faultingAddr u] with
      | none => do
          crashGuest
          pure .crashed
      | some esp => do
          act (.alterPageDir true)
          let eip ← act (.handler u.cause)
          act (.setUreg fun u => { u with
            ss := guestKernelDs, esp := esp - base, cs := guestKernelCs, eip := eip - base
            gs := guestKernelDs, fs := guestKernelDs, es := guestKernelDs, ds := guestKernelDs })
          pure .delivered

/-- The part of `handle_virtual_interrupt` that looks for a handler of the guest. -/
def findHandler (u : Ureg) (key : Word) : Program Outcome :=
  if u.cause.toNat < virtualIdtLen then do
    if (← act (.handler u.cause)) ≠ 0 then deliver u key
    else do
      crashGuest
      pure .crashed
  else do
    crashGuest
    pure .crashed

/-- `handle_virtual_interrupt`. What the timer and the keyboard do for the host is left
out; `key` is what the keyboard has read. -/
def handleVirtualInterrupt (u : Ureg) (key : Word) : Program Outcome :=
  match if u.cause = hvInt then hvcallHandlerArray u.eax.toNat else none with
  | some handler => do
      handler u
      pure .hypercall
  | none =>
      if u.cause = timerIdtEntry ∨ u.cause = keyIdtEntry then do
        if ← act .flag then findHandler u key else pure .suspended
      else findHandler u key

namespace Host

/-- The guest has trapped with these registers. -/
def trap (h : Host) (u : Ureg) : Host := { h with ureg := u, exited := none }

/-- The host after an interrupt of the guest, and how its handler has returned; none if
the guest has vanished in it. -/
def interrupt (h : Host) (u : Ureg) (key : Word) : Host × Option Outcome :=
  (handleVirtualInterrupt u key).eval exec alive (h.trap u)

end Host

end OsKernel.Guest
