/-
The host while one guest runs on it, and the actions its handlers are made of.

`Host` is the address space behind `%cr3`: the bytes at host addresses, which user
pages are mapped, and where the PCB of the guest lies in the kernel heap. Below
`userMemStart` everything is mapped. `load_executable` maps the memory of a guest at
once, to frames of its own, and the page faults of a guest never reach
`handle_page_fault`: so no page here shares its frame, and `Host.resident` holds.

The fields of the PCB are bytes of the host like any others, at the offsets that
`pcb_t` gives them (`kern/inc/ctrl_blk.h`); only those that the handlers use have a name.
A fault of the kernel while it handles an interrupt of a guest crashes the guest
(`handle` of `kern/interrupt.c`).
-/

import OsKernel.Guest.Console
import OsKernel.Lib.Check
import OsKernel.Memory.Handlers

namespace OsKernel.Guest

open OsKernel.Vm Prog

abbrev Word := BitVec 32

/-- `ureg_t`, less the registers that no handler looks at. -/
structure Ureg where
  cause : Word
  cr2 : Word
  ds : Word
  es : Word
  fs : Word
  gs : Word
  eax : Word
  errorCode : Word
  eip : Word
  cs : Word
  eflags : Word
  esp : Word
  ss : Word
deriving DecidableEq

/-! ### Words in memory -/

/-- The double word that is stored as these four bytes. -/
def ofBytes (b₀ b₁ b₂ b₃ : Byte) : Word := b₃ ++ b₂ ++ b₁ ++ b₀

/-- The bytes of a word, the lowest first. -/
def bytesOf (w : Word) : List Byte :=
  [w.extractLsb' 0 8, w.extractLsb' 8 8, w.extractLsb' 16 8, w.extractLsb' 24 8]

/-- Memory with the bytes placed from `v` on. -/
def place (mem : Word → Byte) (v : Word) (bytes : List Byte) : Word → Byte :=
  fun w => bytes.getD (w - v).toNat (mem w)

def wordAt (mem : Word → Byte) (v : Word) : Word :=
  ofBytes (mem v) (mem (v + 1)) (mem (v + 2)) (mem (v + 3))

/-! ### The host -/

/-- A user page of the directory of a guest. -/
inductive Page where
  | unmapped (available : Bool)
  /-- With its read/write and user/supervisor bits. -/
  | mapped (access : Access) (us : Bool)
deriving DecidableEq

def Page.present : Page → Bool
  | .unmapped _ => false
  | .mapped .. => true

/-- `GUEST_MEM_SIZE` -/
def guestMemSize : Nat := 0x1400000

/-- A byte of the memory of the guest. -/
def InGuest (v : Word) : Prop := userMemStart ≤ v.toNat ∧ v.toNat < userMemStart + guestMemSize

instance (v : Word) : Decidable (InGuest v) := inferInstanceAs (Decidable (_ ∧ _))

/-- `VIRTUAL_IDT_LEN` -/
def virtualIdtLen : Nat := 0x22

/-- The offsets of `status`, and of `interrupt_enable_flag`, `esp0` and `virtual_idt` in
`guest_resource`, in a `pcb_t`. -/
def statusOffset : Word := 12
def flagOffset : Word := 36
def esp0Offset : Word := 40
def virtualIdtOffset : Word := 44

/-- `sizeof(pcb_t)` -/
def pcbSize : Nat := 44 + 4 * virtualIdtLen

structure Host where
  mem : Word → Byte
  /-- By page number. -/
  page : Nat → Page
  pcb : Word
  ureg : Ureg
  console : Console
  /-- `map_new_frame` succeeds for the page. -/
  frameFor : Nat → Bool
  /-- The exit status of the guest, once it has vanished. -/
  exited : Option Word
  resident : ∀ v, InGuest v → (page (v.toNat / pageSize)).present = true
  placed : pcb.toNat + pcbSize ≤ userMemStart

namespace Host

def alive (h : Host) : Bool := h.exited.isNone

/-- The byte can be accessed by the kernel; it ignores the access bits. -/
def present (h : Host) (v : Word) : Bool :=
  v.toNat < userMemStart || (h.page (v.toNat / pageSize)).present

theorem present_kernel (h : Host) {v : Word} (below : v.toNat < userMemStart) :
    h.present v = true := by
  rw [present, decide_eq_true below, Bool.true_or]

/-- The address of `virtual_idt[i]`. -/
def slot (h : Host) (i : Word) : Word := h.pcb + virtualIdtOffset + 4 * i

/-- The bytes placed at a host address. -/
def put (h : Host) (v : Word) (bytes : List Byte) : Host := { h with mem := place h.mem v bytes }

/-- `current_pcb_ptr->status = status` and `handle_vanish`. -/
def vanish (h : Host) (status : Word) : Host :=
  { h.put (h.pcb + statusOffset) (bytesOf status) with exited := some status }

/-- `GUEST_CRASH_STATUS` -/
def guestCrashStatus : Word := 0xDEADC0DE

/-- A fault of the kernel. -/
def fault (h : Host) : Host := h.vanish guestCrashStatus

/-- The page table entries that `alter_page_dir` reaches before the first page that is
not present, with their U/S bits set. -/
def alterPages (us : Bool) (page : Nat → Page) : List Nat → (Nat → Page)
  | [] => page
  | p :: ps => match page p with
    | .mapped access _ => alterPages us (Function.update page p (.mapped access us)) ps
    | .unmapped _ => page

theorem alterPages_present (us : Bool) (page : Nat → Page) (ps : List Nat) (p : Nat) :
    (alterPages us page ps p).present = (page p).present := by
  induction ps generalizing page with
  | nil => rfl
  | cons q qs ih =>
      rw [alterPages]
      cases there : page q with
      | unmapped available => rfl
      | mapped access _ =>
          rw [ih]
          by_cases same : p = q
          · subst same
            rw [Function.update_self, there]
            rfl
          · rw [Function.update_of_ne same]

/-- The pages that `alter_page_dir` goes through. -/
@[irreducible] def alteredPages : List Nat :=
  (List.range ((userMemStart + userMemStart - userPageStart) / pageSize)).map
    fun i => userPageStart / pageSize + i

/-- `alter_page_dir` -/
def alterPageDir (h : Host) (kernelMode : Bool) : Host :=
  { h with
    page := alterPages kernelMode h.page alteredPages
    resident := fun v inside => by rw [alterPages_present]; exact h.resident v inside }

/-- `map_new_frame` of a page that is available, and its `memset`. -/
def mapNew (h : Host) (p : Nat) : Host :=
  { h with
    page := Function.update h.page p (.mapped .readWrite true)
    mem := fun w => if w.toNat / pageSize = p then 0 else h.mem w
    resident := fun v inside => by
      by_cases same : v.toNat / pageSize = p
      · rw [same, Function.update_self]
        rfl
      · rw [Function.update_of_ne same]
        exact h.resident v inside }

/-- One page of `map_and_clear`, with `zero_frame` false. -/
def mapAndClear (h : Host) (v : Word) : Host × Bool :=
  if v.toNat < userPageStart then (h, false)
  else match h.page (v.toNat / pageSize) with
    | .mapped .. => (h, true)
    | .unmapped true =>
        if h.frameFor (v.toNat / pageSize) then (h.mapNew (v.toNat / pageSize), true) else (h, false)
    | .unmapped false => (h, false)

/-- `is_host_readable` -/
def isHostReadable (addr : Word) (size : Nat) : Bool :=
  size = 0 ∨ userMemStart ≤ addr.toNat ∧ addr.toNat + size ≤ userMemStart + guestMemSize

theorem isHostReadable_iff {addr : Word} {size : Nat} : isHostReadable addr size = true ↔
    size = 0 ∨ userMemStart ≤ addr.toNat ∧ addr.toNat + size ≤ userMemStart + guestMemSize :=
  decide_eq_true_iff

/-- `is_host_writable` -/
def isHostWritable (h : Host) (addr : Word) (size : Nat) : Bool :=
  isHostReadable addr size && (Memory.pagesOf addr.toNat size).all fun v =>
    match h.page (v / pageSize) with
    | .mapped .readWrite _ => true
    | _ => false

end Host

/-! ### Actions -/

inductive Act where
  /-- Accesses through an address of the guest. -/
  | load (v : Word)
  | store (v : Word) (b : Byte)
  | mapAndClear (v : Word)
  | isHostWritable (addr : Word) (size : Nat)
  /-- The fields of `guest_resource`. -/
  | flag
  | setFlag (b : Bool)
  | esp0
  | handler (i : Word)
  | setHandler (i : Word) (eip : Word)
  | setUreg (f : Ureg → Ureg)
  | alterPageDir (kernelMode : Bool)
  | console (f : Console → Console × Int)
  | vanish (status : Word)

abbrev Act.Result : Act → Type
  | .load _ => Byte
  | .mapAndClear _ | .isHostWritable .. | .flag => Bool
  | .esp0 | .handler _ => Word
  | .console _ => Int
  | _ => Unit

abbrev Program := Prog Act Act.Result

abbrev act (a : Act) : Program a.Result := perform a

def exec : (a : Act) → Host → Host × a.Result
  | .load v, h => if h.present v then (h, h.mem v) else (h.fault, 0)
  | .store v b, h => if h.present v then (h.put v [b], ()) else (h.fault, ())
  | .mapAndClear v, h => h.mapAndClear v
  | .isHostWritable addr size, h => (h, h.isHostWritable addr size)
  | .flag, h => (h, h.mem (h.pcb + flagOffset) != 0)
  | .setFlag b, h => (h.put (h.pcb + flagOffset) [if b then 1 else 0], ())
  | .esp0, h => (h, wordAt h.mem (h.pcb + esp0Offset))
  | .handler i, h => (h, wordAt h.mem (h.slot i))
  | .setHandler i eip, h =>
      if h.present (h.slot i) ∧ h.present (h.slot i + 3) then (h.put (h.slot i) (bytesOf eip), ())
      else (h.fault, ())
  | .setUreg f, h => ({ h with ureg := f h.ureg }, ())
  | .alterPageDir kernelMode, h => (h.alterPageDir kernelMode, ())
  | .console f, h => ({ h with console := (f h.console).1 }, (f h.console).2)
  | .vanish status, h => (h.vanish status, ())

end OsKernel.Guest
