/-
The scancode buffer that `readline` and the guests share (`kern/keyboard.c`,
`handle_virtual_interrupt` of `kern/virtual_interrupt.c`, `handle` of `kern/interrupt.c`).

A keyboard interrupt that finds an ordinary process, or the kernel, running puts its scancode
into the buffer, for `extract_ch`. One that finds a guest running puts its scancode into the
same buffer and decodes what is then at the head of it. `scancodes_iff` is about every run from
every content of the buffer: the guests are given their own key presses, and `readline` its own,
if and only if such an interrupt never finds another scancode in the buffer, nor the buffer full.

`process_scancode` is a parameter: what it returns depends on the scancodes it was given before.
-/

import OsKernel.Input.Buffer
import OsKernel.Guest.Delivery

namespace OsKernel.Input

open OsKernel.Guest (Word Host Ureg Outcome errCode keyIdtEntry)
open OsKernel.Run

/-! ### The driver -/

structure Keyboard (D : Type) where
  scancodeBuf : Buf
  /-- What `process_scancode` keeps between two calls. -/
  decoder : D
  /-- What `handle_keyboard` has put into the buffer, from the first on. -/
  stored : List Byte
  /-- What `extract_ch` has taken out of it, from the first on. -/
  consumed : List Byte

/-- `KH_ISMAKE` -/
def khIsMake (k : Word) : Bool := (k.sshiftRight 16) &&& 0x01 != 0

/-- `KH_HASDATA` -/
def khHasData (k : Word) : Bool := (k.sshiftRight 16) &&& 0x04 != 0

/-- `KH_GETCHAR` -/
def khGetChar (k : Word) : Byte := k.setWidth 8

/-- `SEGSEL_KERNEL_CS` -/
def kernelCs : Word := .ofNat 32 Privilege.segselKernelCs

namespace Keyboard

variable {D : Type}

/-- The driver after other scancodes, with this content of the buffer. -/
def start (buf : Buf) (decoder : D) : Keyboard D := ⟨buf, decoder, [], []⟩

/-- `handle_keyboard`, less waking up the first reader. -/
def handleKeyboard (k : Keyboard D) (scancode : Byte) : Keyboard D :=
  let pushed := k.scancodeBuf.pushTail scancode
  { k with scancodeBuf := pushed.1
           stored := if pushed.2 < 0 then k.stored else k.stored ++ [scancode] }

variable (process : D → Byte → D × Word)

/-- `handle_virtual_interrupt` for the keyboard, and the event in the frame if one is delivered
to the guest. A `pop_head` that fails leaves the scancode as it is. -/
def handleVirtualInterrupt (k : Keyboard D) (guest : Host) (ureg : Ureg) (scancode : Byte) :
    Keyboard D × Option Word :=
  let ureg := { ureg with cause := keyIdtEntry }
  let popped := (k.scancodeBuf.pushTail scancode).1.popHead
  let augmentedCh := process k.decoder (popped.2.getD scancode)
  ({ k with scancodeBuf := popped.1, decoder := augmentedCh.1 },
    match (guest.interrupt ureg augmentedCh.2).2 with
    | some .delivered => some (errCode ureg augmentedCh.2)
    | _ => none)

/-- `handle` for the keyboard; the process that runs may be a guest. -/
def handle (k : Keyboard D) (guest : Option Host) (ureg : Ureg) (scancode : Byte) :
    Keyboard D × Option Word :=
  match guest with
  | some guest =>
      if ureg.cs = kernelCs then (k.handleKeyboard scancode, none)
      else k.handleVirtualInterrupt process guest ureg scancode
  | none => (k.handleKeyboard scancode, none)

theorem popHead_count {b : Buf} {c : Byte} (popped : b.popHead.2 = some c) :
    b.popHead.1.elementCount.toNat < b.elementCount.toNat := by
  rw [Buf.popHead] at popped ⊢
  split
  · rename_i empty
    rw [if_pos empty] at popped
    cases popped
  · dsimp only
    omega

/-- `extract_ch`, on the scancode buffer -/
def extractCh (k : Keyboard D) : Keyboard D × Option Byte :=
  match _popped : k.scancodeBuf.popHead.2 with
  | none => (k, none)
  | some scancode =>
      let augmentedCh := process k.decoder scancode
      let k' := { k with scancodeBuf := k.scancodeBuf.popHead.1
                         decoder := augmentedCh.1
                         consumed := k.consumed ++ [scancode] }
      if khIsMake augmentedCh.2 && khHasData augmentedCh.2 then
        (k', some (khGetChar augmentedCh.2))
      else extractCh k'
termination_by k.scancodeBuf.elementCount.toNat
decreasing_by exact popHead_count _popped

/-! ### Runs -/

inductive Event where
  /-- A keyboard interrupt, while a guest or an ordinary process runs. -/
  | key (guest : Option Host) (ureg : Ureg) (scancode : Byte)
  /-- A call of `extract_ch` by `readline`. -/
  | extract

def step (k : Keyboard D) : Event → Keyboard D
  | .key guest ureg scancode => (k.handle process guest ureg scancode).1
  | .extract => (k.extractCh process).1

/-- An event that is delivered to a guest is decoded from the scancode of its interrupt. -/
def Right (k : Keyboard D) : Event → Prop
  | .key guest ureg scancode => ∀ event, (k.handle process guest ureg scancode).2 = some event →
      event = (process k.decoder scancode).2
  | .extract => True

/-- What was in the buffer and what `handle_keyboard` has put into it since is, in order, what
`extract_ch` has taken out of it and what is still there. -/
def InOrder (before : List Byte) (k : Keyboard D) : Prop :=
  before ++ k.stored = k.consumed ++ k.scancodeBuf.contents

/-- A keyboard interrupt of a guest finds the buffer empty; other copies of its scancode in it
make no difference as long as it is not full. -/
def Undisturbed (k : Keyboard D) : Event → Prop
  | .key (some _) ureg scancode => ureg.cs ≠ kernelCs →
      k.scancodeBuf.contents.length < 1024 ∧ ∀ c ∈ k.scancodeBuf.contents, c = scancode
  | _ => True

/-! ### What a step does to the buffer -/

variable {process} {k : Keyboard D}

theorem valid_handleKeyboard (valid : k.scancodeBuf.Valid) (scancode : Byte) :
    (k.handleKeyboard scancode).scancodeBuf.Valid := by
  rcases Nat.lt_or_eq_of_le valid.length_le with room | full
  · exact (valid.pushTail room scancode).2.1
  · rw [handleKeyboard, valid.pushTail_full full]
    exact valid

/-- What `handle_keyboard` does not store has found the buffer full. -/
theorem inOrder_handleKeyboard {before : List Byte} (valid : k.scancodeBuf.Valid)
    (order : InOrder before k) (scancode : Byte) : InOrder before (k.handleKeyboard scancode) := by
  rcases Nat.lt_or_eq_of_le valid.length_le with room | full
  · obtain ⟨ok, -, contents⟩ := valid.pushTail room scancode
    rw [InOrder, handleKeyboard]
    dsimp only
    rw [ok, if_neg (by decide), contents, ← List.append_assoc, ← List.append_assoc, order]
  · rw [InOrder, handleKeyboard, valid.pushTail_full full, if_pos (show (-1 : Int) < 0 by decide)]
    exact order

/-- `extract_ch` takes scancodes from the head on. -/
theorem extractCh_spec {before : List Byte} (valid : k.scancodeBuf.Valid) (order : InOrder before k) :
    (k.extractCh process).1.scancodeBuf.Valid ∧ InOrder before (k.extractCh process).1 := by
  have taken : ∀ {k : Keyboard D} {scancode : Byte} (decoder : D), k.scancodeBuf.Valid →
      InOrder before k → k.scancodeBuf.popHead.2 = some scancode →
      k.scancodeBuf.popHead.1.Valid ∧
        InOrder before { k with scancodeBuf := k.scancodeBuf.popHead.1
                                decoder := decoder
                                consumed := k.consumed ++ [scancode] } := by
    intro k scancode decoder valid order popped
    cases whole : k.scancodeBuf.contents with
    | nil =>
        rw [Buf.popHead_empty whole] at popped
        cases popped
    | cons c rest =>
        obtain ⟨head, valid', contents⟩ := valid.popHead whole
        cases head.symm.trans popped
        refine ⟨valid', ?_⟩
        rw [InOrder] at order ⊢
        dsimp only
        rw [order, whole, contents, List.append_assoc]
        rfl
  fun_induction extractCh process k with
  | case1 k => exact ⟨valid, order⟩
  | case2 k scancode popped => exact taken _ valid order popped
  | case3 k scancode popped =>
      rename_i ih
      obtain ⟨valid', order'⟩ := taken (process k.decoder scancode).1 valid order popped
      exact ih valid' order'

/-- What a guest takes is at the head of the buffer, behind which its own scancode is put. -/
theorem popped_spec (valid : k.scancodeBuf.Valid) (scancode : Byte) :
    ((k.scancodeBuf.pushTail scancode).1.popHead).1.Valid ∧
      ∃ c, (k.scancodeBuf.pushTail scancode).1.popHead.2 = some c ∧
        c :: (k.scancodeBuf.pushTail scancode).1.popHead.1.contents =
          if k.scancodeBuf.contents.length < 1024 then k.scancodeBuf.contents ++ [scancode]
          else k.scancodeBuf.contents := by
  have pushed : (k.scancodeBuf.pushTail scancode).1.Valid ∧
      (k.scancodeBuf.pushTail scancode).1.contents =
        if k.scancodeBuf.contents.length < 1024 then k.scancodeBuf.contents ++ [scancode]
        else k.scancodeBuf.contents := by
    rcases Nat.lt_or_eq_of_le valid.length_le with room | full
    · rw [if_pos room]
      exact (valid.pushTail room scancode).2
    · rw [if_neg (by omega), valid.pushTail_full full]
      exact ⟨valid, rfl⟩
  cases whole : (k.scancodeBuf.pushTail scancode).1.contents with
  | nil =>
      have length := congrArg List.length (whole.symm.trans pushed.2)
      split at length
      · simp at length
      · rw [List.length_nil] at length
        omega
  | cons c rest =>
      obtain ⟨head, valid', contents⟩ := pushed.1.popHead whole
      exact ⟨valid', c, head, by rw [contents, ← whole, pushed.2]⟩

theorem all_of_rotate {c d : Byte} {l : List Byte} (same : c :: l = l ++ [d]) :
    c = d ∧ ∀ e ∈ l, e = d := by
  induction l generalizing c with
  | nil =>
      cases same
      exact ⟨rfl, nofun⟩
  | cons e l ih =>
      obtain ⟨rfl, same⟩ := List.cons.inj same
      obtain ⟨first, others⟩ := ih same
      exact ⟨first, List.forall_mem_cons.mpr ⟨first, others⟩⟩

/-- A list with an element put at its end and one taken from its head is as before if and only
if it has only copies of that element. -/
theorem rotate_iff {c d : Byte} {l rest : List Byte} (whole : c :: rest = l ++ [d]) :
    rest = l ↔ ∀ e ∈ l, e = d := by
  constructor
  · rintro rfl
    exact (all_of_rotate whole).2
  · intro copies
    rw [List.eq_replicate_of_mem copies, ← List.replicate_succ', List.replicate_succ] at whole
    rw [(List.cons.inj whole).2]
    exact (List.eq_replicate_of_mem copies).symm

/-- The interrupt of a guest leaves the buffer in order if and only if it is undisturbed. -/
theorem inOrder_handleVirtualInterrupt {before : List Byte} (valid : k.scancodeBuf.Valid)
    (order : InOrder before k) (guest : Host) (ureg : Ureg) (scancode : Byte) :
    InOrder before (k.handleVirtualInterrupt process guest ureg scancode).1 ↔
      k.scancodeBuf.contents.length < 1024 ∧ ∀ c ∈ k.scancodeBuf.contents, c = scancode := by
  obtain ⟨-, c, -, whole⟩ := popped_spec valid scancode
  have same : InOrder before (k.handleVirtualInterrupt process guest ureg scancode).1 ↔
      (k.scancodeBuf.pushTail scancode).1.popHead.1.contents = k.scancodeBuf.contents := by
    rw [InOrder] at order ⊢
    rw [handleVirtualInterrupt]
    dsimp only
    rw [order, List.append_cancel_left_eq, eq_comm]
  rw [same]
  split at whole
  · rename_i room
    rw [rotate_iff whole, and_iff_right room]
  · rename_i full
    refine ⟨fun eq => ?_, fun undisturbed => absurd undisturbed.1 full⟩
    have length := congrArg List.length whole
    rw [eq, List.length_cons] at length
    omega

/-- An undisturbed interrupt decodes its own scancode. -/
theorem right_handleVirtualInterrupt (valid : k.scancodeBuf.Valid) (guest : Host) (ureg : Ureg)
    {scancode : Byte} (room : k.scancodeBuf.contents.length < 1024)
    (copies : ∀ c ∈ k.scancodeBuf.contents, c = scancode) {event : Word}
    (delivered : (k.handleVirtualInterrupt process guest ureg scancode).2 = some event) :
    event = (process k.decoder scancode).2 := by
  obtain ⟨-, c, popped, whole⟩ := popped_spec valid scancode
  rw [if_pos room] at whole
  have own : c = scancode := by
    have mem : c ∈ k.scancodeBuf.contents ++ [scancode] := whole ▸ List.mem_cons_self
    rcases List.mem_append.mp mem with other | mem
    · exact copies c other
    · exact List.mem_singleton.mp mem
  rw [handleVirtualInterrupt, popped, own] at delivered
  dsimp only [Option.getD_some] at delivered
  split at delivered
  · exact (Option.some.inj delivered).symm
  · cases delivered

/-- A step keeps the order if and only if it is undisturbed. -/
theorem step_spec {before : List Byte} (valid : k.scancodeBuf.Valid) (order : InOrder before k)
    (e : Event) : (k.step process e).scancodeBuf.Valid ∧
      (InOrder before (k.step process e) ↔ k.Undisturbed e) := by
  cases e with
  | extract =>
      obtain ⟨valid', order'⟩ : (k.extractCh process).1.scancodeBuf.Valid ∧
          InOrder before (k.extractCh process).1 := extractCh_spec valid order
      exact ⟨valid', iff_of_true order' trivial⟩
  | key guest ureg scancode =>
      have host := And.intro (valid_handleKeyboard valid scancode)
        (inOrder_handleKeyboard valid order scancode)
      rcases guest with _ | guest
      · exact ⟨host.1, iff_of_true host.2 trivial⟩
      rw [step, handle, Undisturbed]
      by_cases kernel : ureg.cs = kernelCs
      · rw [if_pos kernel]
        exact ⟨host.1, iff_of_true host.2 fun user => absurd kernel user⟩
      · rw [if_neg kernel, inOrder_handleVirtualInterrupt valid order, forall_prop_of_true kernel]
        exact ⟨(popped_spec valid scancode).1, Iff.rfl⟩

theorem right_of_undisturbed (valid : k.scancodeBuf.Valid) {e : Event}
    (undisturbed : k.Undisturbed e) : k.Right process e := by
  cases e with
  | extract => trivial
  | key guest ureg scancode =>
      intro event delivered
      rcases guest with _ | guest
      · cases delivered
      rw [handle] at delivered
      split at delivered
      · cases delivered
      · rename_i user
        obtain ⟨room, copies⟩ := undisturbed user
        exact right_handleVirtualInterrupt valid guest ureg room copies delivered

/-- The exact condition, for every run from every content of the buffer: each guest is given
the events of its own scancodes, and `extract_ch` the scancodes of `handle_keyboard`, if and
only if every keyboard interrupt of a guest is undisturbed. -/
theorem scancodes_iff (process : D → Byte → D × Word) {buf : Buf} (valid : buf.Valid) (decoder : D)
    (events : List Event) :
    Along (step process) (InOrder buf.contents) (start buf decoder) events ∧
        StepsMeet (step process) (Right process) (start buf decoder) events ↔
      StepsMeet (step process) Undisturbed (start buf decoder) events := by
  have sound : (start buf decoder).scancodeBuf.Valid ∧ InOrder buf.contents (start buf decoder) :=
    ⟨valid, List.append_nil _⟩
  have keeps : ∀ (k : Keyboard D) e, k.scancodeBuf.Valid ∧ InOrder buf.contents k → k.Undisturbed e →
      (k.step process e).scancodeBuf.Valid ∧ InOrder buf.contents (k.step process e) :=
    fun k e inv undisturbed =>
      have after : (k.step process e).scancodeBuf.Valid ∧
          (InOrder buf.contents (k.step process e) ↔ k.Undisturbed e) := step_spec inv.1 inv.2 e
      ⟨after.1, after.2.mpr undisturbed⟩
  constructor
  · rintro ⟨order, -⟩
    exact stepsMeet_of_along_inv (fun k e inv => (step_spec inv.1 inv.2 e).2.mp) keeps sound order
  · intro meet
    exact ⟨along_of_stepsMeet (fun k inv => inv.2) keeps sound meet,
      stepsMeet_of_stepsMeet (fun k e inv => right_of_undisturbed inv.1) keeps sound meet⟩

/-! ### A key of the host -/

/-- A guest with a handler for the keyboard. -/
def keyHost : Host :=
  { Guest.emptyHost 0 with
    mem := Guest.place (Guest.place (Guest.emptyHost 0).mem
      ((Guest.emptyHost 0).pcb + Guest.flagOffset) [1])
      ((Guest.emptyHost 0).slot keyIdtEntry) (Guest.bytesOf (Guest.base + 0x4000)) }

def keyRegs : Ureg := { Guest.exitRegs with cause := keyIdtEntry, esp := 0x2000 }

theorem key_delivered (ch : Word) :
    (keyHost.interrupt { keyRegs with cause := keyIdtEntry } ch).2 = some .delivered := by
  rw [Guest.interrupt_guest (h := keyHost) (e := Guest.base + 0x1FEC) (.inr rfl) (by decide +kernel)
    (by decide +kernel) rfl (by decide) (by unfold Guest.GuestRange; decide) (by decide)]

/-- `process_scancode` for a press of the key of the letter a and, otherwise, for a release of
the enter key. -/
def pressOrRelease (_ : Unit) (scancode : Byte) : Unit × Word :=
  ((), if scancode = 0x1E then 0x000D6161 else 0x000C0A0A)

theorem scancodes_iff_fresh :
    Along (step pressOrRelease) (InOrder []) (start Buf.fresh ()) [.key (some keyHost) keyRegs 0x1E] ∧
      StepsMeet (step pressOrRelease) (Right pressOrRelease) (start Buf.fresh ())
        [.key (some keyHost) keyRegs 0x1E] :=
  (scancodes_iff pressOrRelease Buf.valid_fresh () [.key (some keyHost) keyRegs 0x1E]).mpr
    ⟨fun _ => ⟨by decide, nofun⟩, trivial⟩

/-- The enter key is released while the shell runs, and then the a is pressed for a guest: the
guest is given the release. -/
theorem release_delivered :
    ((run (step pressOrRelease) (start Buf.fresh ()) [.key none keyRegs 0x9C]).handle pressOrRelease
      (some keyHost) keyRegs 0x1E).2 = some (pressOrRelease () 0x9C).2 ∧
    ¬ (Along (step pressOrRelease) (InOrder []) (start Buf.fresh ())
        [.key none keyRegs 0x9C, .key (some keyHost) keyRegs 0x1E] ∧
      StepsMeet (step pressOrRelease) (Right pressOrRelease) (start Buf.fresh ())
        [.key none keyRegs 0x9C, .key (some keyHost) keyRegs 0x1E]) := by
  have delivered : ((run (step pressOrRelease) (start Buf.fresh ()) [.key none keyRegs 0x9C]).handle
      pressOrRelease (some keyHost) keyRegs 0x1E).2 = some (pressOrRelease () 0x9C).2 := by
    rw [handle, if_neg (by decide), handleVirtualInterrupt]
    dsimp only
    rw [key_delivered]
    rfl
  refine ⟨delivered, fun ⟨_, _, right, _⟩ => ?_⟩
  exact absurd (right _ delivered) (by decide)

end Keyboard

end OsKernel.Input
