/-
What a hypervisor call reads and writes of the host.

The buffers of a call are checked, the argument words are not: a call is confined exactly
when its argument words lie in the memory of the guest. A confined call cannot tell hosts
apart that agree on what belongs to the guest (`Agree`).
-/

import OsKernel.Guest.Rules

namespace OsKernel.Guest

open OsKernel.Vm Prog

/-- A byte of the `guest_resource` in the PCB at this address. -/
def InResource (pcb v : Word) : Prop := (v - (pcb + flagOffset)).toNat < 8 + 4 * virtualIdtLen

/-- The hosts agree on the memory of the guest and where it is mapped, on the registers
it has trapped with, on its `guest_resource` and on the console. -/
structure Agree (h h' : Host) : Prop where
  page : h.page = h'.page
  pcb : h.pcb = h'.pcb
  ureg : h.ureg = h'.ureg
  console : h.console = h'.console
  exited : h.exited = h'.exited
  guest : ∀ v, InGuest v → h.mem v = h'.mem v
  resource : ∀ v, InResource h.pcb v → h.mem v = h'.mem v

/-! ### Agreement -/

theorem place_congr {mem mem' : Word → Byte} {v w : Word} {bytes : List Byte}
    (same : mem w = mem' w) : place mem v bytes w = place mem' v bytes w := by
  rw [place, place, same]

namespace Agree

variable {h h' : Host}

/-- The same bytes are placed at the same address. -/
theorem put (agree : Agree h h') (v : Word) (bytes : List Byte) :
    Agree (h.put v bytes) (h'.put v bytes) :=
  ⟨agree.page, agree.pcb, agree.ureg, agree.console, agree.exited,
    fun w inside => place_congr (agree.guest w inside),
    fun w inside => place_congr (agree.resource w inside)⟩

/-- The same bytes are placed at the same offset of the PCB. -/
theorem putPcb (agree : Agree h h') (off : Word) (bytes : List Byte) :
    Agree (h.put (h.pcb + off) bytes) (h'.put (h'.pcb + off) bytes) := by
  rw [show h'.pcb + off = h.pcb + off by rw [agree.pcb]]
  exact agree.put _ bytes

theorem vanish (agree : Agree h h') (status : Word) : Agree (h.vanish status) (h'.vanish status) :=
  have placed := agree.putPcb statusOffset (bytesOf status)
  ⟨placed.page, placed.pcb, placed.ureg, placed.console, rfl, placed.guest, placed.resource⟩

theorem present (agree : Agree h h') (v : Word) : h.present v = h'.present v := by
  rw [Host.present, Host.present, agree.page]

theorem alive (agree : Agree h h') : h.alive = h'.alive := by
  rw [Host.alive, Host.alive, agree.exited]

/-- What the PCB holds for the guest. -/
theorem pcbByte (agree : Agree h h') {off : Word} (low : 36 ≤ off.toNat)
    (high : off.toNat < pcbSize) : h.mem (h.pcb + off) = h'.mem (h'.pcb + off) := by
  rw [← agree.pcb]
  refine agree.resource _ ?_
  have : h.pcb + off - (h.pcb + flagOffset) = off - flagOffset := by bv_omega
  rw [InResource, this]
  simp only [pcbSize, virtualIdtLen, flagOffset] at *
  bv_omega

theorem wordAt (agree : Agree h h') {off : Word} (low : 36 ≤ off.toNat)
    (high : off.toNat + 3 < pcbSize) :
    Guest.wordAt h.mem (h.pcb + off) = Guest.wordAt h'.mem (h'.pcb + off) := by
  have byte : ∀ k : Word, k.toNat ≤ 3 → h.mem (h.pcb + off + k) = h'.mem (h'.pcb + off + k) := by
    intro k le
    rw [BitVec.add_assoc, BitVec.add_assoc]
    simp only [pcbSize, virtualIdtLen] at high
    refine agree.pcbByte ?_ ?_
    · bv_omega
    · simp only [pcbSize, virtualIdtLen]
      bv_omega
  have first := byte 0#32 (by decide)
  rw [BitVec.add_zero, BitVec.add_zero] at first
  rw [Guest.wordAt, Guest.wordAt, first, byte 1 (by decide), byte 2 (by decide), byte 3 (by decide)]

end Agree

theorem Host.present_guest (h : Host) {v : Word} (inside : InGuest v) : h.present v = true := by
  rw [Host.present, h.resident v inside, Bool.or_true]

theorem Host.mapAndClear_guest (h : Host) {v : Word} (inside : InGuest v) :
    h.mapAndClear v = (h, true) := by
  have there := h.resident v inside
  have low := inside.1
  unfold Host.mapAndClear
  rw [if_neg (by simp only [userPageStart, userMemStart, pageSize] at *; omega)]
  generalize h.page (v.toNat / pageSize) = page at there
  cases page with
  | unmapped => cases there
  | mapped => rfl

/-- An action that is confined does the same in hosts that agree. -/
theorem confined_blind (a : Act) (h h' : Host) (agree : Agree h h') (confined : Confined a h) :
    Agree (exec a h).1 (exec a h').1 ∧ (exec a h).2 = (exec a h').2 ∧
      (exec a h).1.alive = (exec a h').1.alive := by
  suffices both : Agree (exec a h).1 (exec a h').1 ∧ (exec a h).2 = (exec a h').2 from
    ⟨both.1, both.2, both.1.alive⟩
  cases a with
  | load v =>
      simp only [exec, h.present_guest confined, h'.present_guest confined, if_true]
      exact ⟨agree, agree.guest v confined⟩
  | store v b =>
      simp only [exec, h.present_guest confined, h'.present_guest confined, if_true]
      exact ⟨agree.put v [b], trivial⟩
  | mapAndClear v =>
      simp only [exec, h.mapAndClear_guest confined, h'.mapAndClear_guest confined]
      exact ⟨agree, trivial⟩
  | isHostWritable addr size =>
      refine ⟨agree, ?_⟩
      simp only [exec, Host.isHostWritable, agree.page]
  | flag =>
      refine ⟨agree, ?_⟩
      simp only [exec]
      rw [agree.pcbByte (by decide) (by decide)]
  | setFlag b => exact ⟨agree.putPcb flagOffset _, rfl⟩
  | esp0 => exact ⟨agree, agree.wordAt (by decide) (by decide)⟩
  | handler i =>
      refine ⟨agree, ?_⟩
      have range : i.toNat < 0x22 := confined
      simp only [exec, Host.slot, BitVec.add_assoc]
      refine agree.wordAt ?_ ?_ <;> simp only [virtualIdtOffset, pcbSize, virtualIdtLen] <;> bv_omega
  | setHandler i eip =>
      have slot : h'.slot i = h.slot i := by rw [Host.slot, Host.slot, agree.pcb]
      simp only [exec, slot, ← agree.present]
      split
      · exact ⟨agree.put _ _, trivial⟩
      · exact ⟨agree.vanish _, trivial⟩
  | setUreg f =>
      exact ⟨⟨agree.page, agree.pcb, congrArg f agree.ureg, agree.console, agree.exited,
        agree.guest, agree.resource⟩, rfl⟩
  | alterPageDir kernelMode =>
      exact ⟨⟨congrArg (Host.alterPages kernelMode · Host.alteredPages) agree.page, agree.pcb,
        agree.ureg, agree.console, agree.exited, agree.guest, agree.resource⟩, rfl⟩
  | console f =>
      refine ⟨⟨agree.page, agree.pcb, agree.ureg, ?_, agree.exited, agree.guest,
        agree.resource⟩, ?_⟩
      · simp only [exec, agree.console]
      · simp only [exec, agree.console]
  | vanish status => exact ⟨agree.vanish status, rfl⟩

/-! ### Calls that are confined -/

open Host (isHostReadable)

/-- A row of argument words is read exactly when it lies in the memory of the guest. -/
theorem meets_loadWord {α : Type} {v : Word} {f : Word → Program α} {h : Host}
    (running : h.exited = none) : (loadWord v >>= f).Meets exec Host.alive Confined h ↔
      isHostReadable v 4 = true ∧ (f (wordAt h.mem v)).Meets exec Host.alive Confined h := by
  have alive : h.alive = true := by rw [Host.alive, running]; rfl
  have load : ∀ {v : Word} {k : Byte → Program α},
      (act (.load v) >>= k).Meets exec Host.alive Confined h ↔
        InGuest v ∧ (k (h.mem v)).Meets exec Host.alive Confined h := by
    intro v k
    constructor
    · rintro ⟨inside, rest⟩
      simp only [exec, h.present_guest inside, if_true] at rest
      exact ⟨inside, rest alive⟩
    · rintro ⟨inside, rest⟩
      refine ⟨inside, ?_⟩
      simp only [exec, h.present_guest inside, if_true]
      exact fun _ => rest
  rw [readable_four, loadWord, bind_assoc, load, bind_assoc, load, bind_assoc, load, bind_assoc, load,
    pure_bind, wordAt]
  tauto

section
variable {u : Ureg} {h : Host} {α : Type}

/-- A call whose argument words lie in the memory of the guest. -/
theorem permits_confined {n : Nat} (fits : n = 0 ∨ u.esp.toNat + 4 * n ≤ guestMemSize) :
    Permits Confined u n := by
  refine ⟨fun i lt => ?_, fun _ _ confined _ => confined⟩
  have range : isHostReadable (argAddr u i) 4 = true := by
    simp only [Host.isHostReadable_iff, argAddr, base, userMemStart, guestMemSize] at *
    right
    have small : i < 2 ^ 30 := by omega
    bv_omega
  have bytes := readable_four.mp range
  exact .bind (stays_act fun _ => bytes.1) fun _ => .bind (stays_act fun _ => bytes.2.1) fun _ =>
    .bind (stays_act fun _ => bytes.2.2.1) fun _ => .bind (stays_act fun _ => bytes.2.2.2) fun _ =>
      stays_ret _

theorem meets_arg {i : Nat} {f : Word → Program α} (running : h.exited = none)
    (meets : (arg u i >>= f).Meets exec Host.alive Confined h) :
    isHostReadable (argAddr u i) 4 = true ∧
      ∃ w, (f w).Meets exec Host.alive Confined h := by
  obtain ⟨range, rest⟩ := (meets_loadWord running).mp meets
  exact ⟨range, _, rest⟩

/-- The first and the last word, and so all between them. -/
theorem fits_of_ends {i : Nat} (small : i < 5)
    (first : isHostReadable (argAddr u 0) 4 = true)
    (last : isHostReadable (argAddr u i) 4 = true) :
    u.esp.toNat + 4 * (i + 1) ≤ guestMemSize := by
  simp only [Host.isHostReadable_iff, argAddr, base, userMemStart, guestMemSize] at *
  bv_omega

/-- A handler that is confined has its argument words in the memory of the guest. -/
theorem fits_of_meets {n : Nat} {handler : Ureg → Program Unit} (running : h.exited = none)
    (found : hvcallHandlerArray n = some handler)
    (meets : (handler u).Meets exec Host.alive Confined h) :
    argWords n = 0 ∨ u.esp.toNat + 4 * argWords n ≤ guestMemSize := by
  unfold hvcallHandlerArray at found
  split at found <;> cases found
  case h_1 | h_5 | h_6 | h_7 | h_8 => exact .inl rfl
  case h_2 =>
      unfold handleHvExit at meets
      obtain ⟨first, -⟩ := meets_arg running meets
      exact .inr (fits_of_ends (by omega) first first)
  case h_3 =>
      unfold handleHvIret at meets
      obtain ⟨first, _, rest⟩ := meets_arg running meets
      obtain ⟨-, _, rest⟩ := meets_arg running rest
      obtain ⟨-, _, rest⟩ := meets_arg running rest
      obtain ⟨-, _, rest⟩ := meets_arg running rest
      exact .inr (fits_of_ends (by omega) first (meets_arg running rest).1)
  case h_4 =>
      unfold handleHvSetidt at meets
      obtain ⟨first, _, rest⟩ := meets_arg running meets
      exact .inr (fits_of_ends (by omega) first (meets_arg running rest).1)
  case h_9 =>
      unfold handleHvPrint at meets
      obtain ⟨first, _, rest⟩ := meets_arg running meets
      exact .inr (fits_of_ends (by omega) first (meets_arg running rest).1)
  case h_10 =>
      unfold handleHvConsSetTermColor at meets
      obtain ⟨first, -⟩ := meets_arg running meets
      exact .inr (fits_of_ends (by omega) first first)
  case h_11 =>
      unfold handleHvConsSetCursorPos at meets
      obtain ⟨first, _, rest⟩ := meets_arg running meets
      exact .inr (fits_of_ends (by omega) first (meets_arg running rest).1)
  case h_12 =>
      unfold handleHvConsGetCursorPos at meets
      obtain ⟨first, _, rest⟩ := meets_arg running meets
      exact .inr (fits_of_ends (by omega) first (meets_arg running rest).1)
  case h_13 =>
      unfold handleHvPrintAt at meets
      obtain ⟨first, _, rest⟩ := meets_arg running meets
      obtain ⟨-, _, rest⟩ := meets_arg running rest
      obtain ⟨-, _, rest⟩ := meets_arg running rest
      obtain ⟨-, _, rest⟩ := meets_arg running rest
      exact .inr (fits_of_ends (by omega) first (meets_arg running rest).1)

end

/-- Every access of the interrupt through an address of the guest is confined, and hosts
that agree on what belongs to the guest come to the same exit status and console. -/
def Host.Confines (h : Host) (u : Ureg) (key : Word) : Prop :=
  (handleVirtualInterrupt u key).Meets exec alive Confined (h.trap u) ∧
    ∀ h' : Host, Agree (h.trap u) (h'.trap u) →
      (h.interrupt u key).1.exited = (h'.interrupt u key).1.exited ∧
        (h.interrupt u key).1.console = (h'.interrupt u key).1.console

/-- A number that is not a call crashes the guest. -/
theorem findHandler_hvInt {u : Ureg} (call : u.cause = hvInt) (key : Word) :
    findHandler u key = (do crashGuest; pure .crashed) := by
  rw [findHandler, call, if_neg (by decide)]

theorem handle_unknown {u : Ureg} (call : u.cause = hvInt)
    (none : hvcallHandlerArray u.eax.toNat = none) (key : Word) :
    handleVirtualInterrupt u key = (do crashGuest; pure .crashed) := by
  rw [handleVirtualInterrupt, if_pos call, none]
  dsimp only
  rw [if_neg (by rw [call]; decide), findHandler_hvInt call]

theorem argWords_unknown {n : Nat} (none : hvcallHandlerArray n = none) : argWords n = 0 := by
  unfold hvcallHandlerArray at none
  split at none <;> cases none
  unfold argWords
  split <;> first | rfl | contradiction

/-- The memory of the guest lies on whole pages. -/
theorem page_of_inGuest {v : Word} (inside : InGuest v) :
    userPageStart / pageSize ≤ v.toNat / pageSize ∧
      v.toNat / pageSize < (userMemStart + guestMemSize) / pageSize := by
  simp only [InGuest, userMemStart, guestMemSize, userPageStart, pageSize] at *
  omega

/-- A host with an empty guest, its PCB at 2 MB, and the same byte everywhere else in the
kernel. -/
def emptyHost (b : Byte) : Host where
  mem := fun v => if v.toNat < userMemStart then b else 0
  page := fun p => if userPageStart / pageSize ≤ p ∧ p < (userMemStart + guestMemSize) / pageSize
    then .mapped .readWrite true else .unmapped false
  pcb := 0x200000
  ureg := ⟨0, 0, 0, 0, 0, 0, 0, 0, 0, 0, 0, 0, 0⟩
  console := ⟨true, 0, 0, 7, 7, fun _ => ⟨32, 7⟩, 0⟩
  frameFor := fun _ => false
  exited := none
  resident := fun v inside => by
    rw [if_pos (page_of_inGuest inside)]
    rfl
  placed := by decide

/-- `hv_exit` with its argument at 1 MB, in the kernel. -/
def exitRegs : Ureg :=
  { cause := hvInt, cr2 := 0, ds := 0, es := 0, fs := 0, gs := 0, eax := 0x01, errorCode := 0
    eip := 0, cs := guestKernelCs, eflags := 0x202, esp := 0xFF100000, ss := guestKernelDs }

end OsKernel.Guest
