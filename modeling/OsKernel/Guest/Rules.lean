/-
The actions of the hypervisor calls, handler by handler.

`Confined` says of an access through an address of the guest that it stays in the memory
of the guest. The handlers check their buffers, so that apart from the argument words
all their accesses are confined; those that write `guest_resource` are kept apart.
`Permits` is a condition on actions that allows a call its argument words and the
confined actions, and `Permits.handler` says that the handler of the call meets it.
-/

import OsKernel.Guest.Hypercall

namespace OsKernel.Guest

open OsKernel.Vm Prog

/-- The access stays in the memory of the guest, and in its virtual IDT. -/
def Confined : Act → Host → Prop
  | .load v, _ | .store v _, _ | .mapAndClear v, _ => InGuest v
  | .handler i, _ => i.toNat < virtualIdtLen
  | _, _ => True

/-- The action writes the flag or the virtual IDT of the guest. -/
def Act.setsResource : Act → Bool
  | .setFlag _ | .setHandler .. => true
  | _ => false

/-! ### Accesses of a range -/

open Host (isHostReadable)

theorem readable_four {v : Word} : isHostReadable v 4 = true ↔
    InGuest v ∧ InGuest (v + 1) ∧ InGuest (v + 2) ∧ InGuest (v + 3) := by
  simp only [Host.isHostReadable_iff, InGuest, userMemStart, guestMemSize]
  constructor
  · rintro (none | range)
    · cases none
    · refine ⟨?_, ?_, ?_, ?_⟩ <;> bv_omega
  · rintro ⟨first, -, -, last⟩
    right
    bv_omega

theorem readable_succ {v : Word} {n : Nat} (range : isHostReadable v (n + 1) = true) :
    InGuest v ∧ isHostReadable (v + 1) n = true := by
  simp only [Host.isHostReadable_iff, InGuest, userMemStart, guestMemSize] at *
  obtain none | range := range
  · cases none
  · refine ⟨by omega, ?_⟩
    by_cases last : n = 0
    · exact .inl last
    · right
      bv_omega

/-! ### Pieces of handlers -/

/-- Every action of the program meets the condition, wherever it starts. -/
abbrev Stays {α : Type} (ok : Act → Host → Prop) (p : Program α) : Prop :=
  Does exec Host.alive ok (fun _ => True) p fun _ _ => True

section
variable {ok : Act → Host → Prop}

theorem stays_ret {α : Type} (x : α) : Stays ok (pure x) := .ret fun _ _ => trivial

theorem stays_act {a : Act} (allowed : ∀ h, ok a h) : Stays ok (act a) :=
  .perform (fun h _ => allowed h) fun _ _ _ => trivial

/-- The condition allows a call its argument words, and what is confined and does not
write `guest_resource`. -/
structure Permits (ok : Act → Host → Prop) (u : Ureg) (n : Nat) : Prop where
  arg : ∀ i < n, Stays ok (arg u i)
  other : ∀ a h, Confined a h → a.setsResource = false → ok a h

/-- An argument word, where every load is allowed. -/
theorem stays_arg (loads : ∀ v h, ok (.load v) h) (u : Ureg) (i : Nat) : Stays ok (arg u i) :=
  .bind (stays_act (loads _)) fun _ => .bind (stays_act (loads _)) fun _ =>
    .bind (stays_act (loads _)) fun _ => .bind (stays_act (loads _)) fun _ => stays_ret _

variable {u : Ureg} {n : Nat}

namespace Permits

theorem putbytes (permits : Permits ok u n) {v : Word} {k : Nat}
    (range : isHostReadable v k = true) : Stays ok (putbytes v k) := by
  induction k generalizing v with
  | zero => exact stays_ret ()
  | succ k ih =>
      obtain ⟨inside, rest⟩ := readable_succ range
      exact .bind (stays_act fun h => permits.other _ h inside rfl) fun _ =>
        .bind (stays_act fun h => permits.other _ h trivial rfl) fun _ => ih rest

theorem storeBytes (permits : Permits ok u n) {v : Word} {bytes : List Byte}
    (range : isHostReadable v bytes.length = true) : Stays ok (storeBytes v bytes) := by
  induction bytes generalizing v with
  | nil => exact stays_ret ()
  | cons b bs ih =>
      obtain ⟨inside, rest⟩ := readable_succ range
      exact .bind (stays_act fun h => permits.other _ h inside rfl) fun _ => ih rest

theorem crash (permits : Permits ok u n) : Stays ok crashGuest :=
  stays_act fun h => permits.other _ h trivial rfl

theorem console (permits : Permits ok u n) (f : Console → Console × Int) :
    Stays ok (act (.console f)) := stays_act fun h => permits.other _ h trivial rfl

theorem setUreg (permits : Permits ok u n) (f : Ureg → Ureg) : Stays ok (act (.setUreg f)) :=
  stays_act fun h => permits.other _ h trivial rfl

/-- A range that `is_host_writable` accepts. -/
theorem isHostWritable (permits : Permits ok u n) (addr : Word) (size : Nat) :
    Does exec Host.alive ok (fun _ => True) (act (.isHostWritable addr size))
      fun accepted _ => True ∧ (accepted = true → isHostReadable addr size = true) :=
  .perform (fun h _ => permits.other _ h trivial rfl) fun _ _ _ =>
    ⟨trivial, fun accepted => (Bool.and_eq_true _ _ ▸ accepted).1⟩

end Permits

/-! ### The handlers -/

theorem printable_range {len buf : Word} (accepted : printable len buf = true) :
    isHostReadable buf len.toInt.toNat = true := (of_decide_eq_true accepted).2.2

theorem stays_iret (permits : Permits ok u 5) (flag : ∀ b h, ok (.setFlag b) h) :
    Stays ok (handleHvIret u) := by
  refine .bind (permits.arg 0 (by omega)) fun eip => .bind (permits.arg 1 (by omega)) fun eflags =>
    .bind (permits.arg 2 (by omega)) fun esp => .bind (permits.arg 3 (by omega)) fun esp0 =>
      .bind (permits.arg 4 (by omega)) fun eax => ?_
  split
  · exact permits.crash
  · exact .bind (permits.setUreg _) fun _ => .bind (stays_act (flag _)) fun _ => permits.setUreg _

theorem stays_setidt (permits : Permits ok u 2) (set : ∀ i eip h, ok (.setHandler i eip) h) :
    Stays ok (handleHvSetidt u) := by
  refine .bind (permits.arg 0 (by omega)) fun irqno => .bind (permits.arg 1 (by omega)) fun eip => ?_
  unfold setidt
  split
  · exact stays_act (set _ _)
  · exact stays_ret ()

theorem stays_print (permits : Permits ok u 2) : Stays ok (handleHvPrint u) := by
  refine .bind (permits.arg 0 (by omega)) fun len => .bind (permits.arg 1 (by omega)) fun buf => ?_
  split
  · rename_i accepted
    exact permits.putbytes (printable_range accepted)
  · exact permits.crash

theorem stays_setColor (permits : Permits ok u 1) : Stays ok (handleHvConsSetTermColor u) := by
  refine .bind (permits.arg 0 (by omega)) fun color => .bind (permits.console _) fun r => ?_
  split
  · exact permits.crash
  · exact stays_ret ()

theorem stays_setCursor (permits : Permits ok u 2) : Stays ok (handleHvConsSetCursorPos u) := by
  refine .bind (permits.arg 0 (by omega)) fun row => .bind (permits.arg 1 (by omega)) fun col =>
    .bind (permits.console _) fun r => ?_
  split
  · exact permits.crash
  · exact stays_ret ()

theorem stays_getCursor (permits : Permits ok u 2) : Stays ok (handleHvConsGetCursorPos u) := by
  refine .bind (permits.arg 0 (by omega)) fun row => .bind (permits.arg 1 (by omega)) fun col =>
    .bind (permits.isHostWritable _ _) fun rowOk => .given fun rowRange => ?_
  split
  swap
  · exact permits.crash
  rename_i accepted
  refine .bind (permits.isHostWritable _ _) fun colOk => .given fun colRange => ?_
  split
  swap
  · exact permits.crash
  rename_i accepted'
  exact .bind (permits.console _) fun _ => .bind (permits.storeBytes (rowRange accepted)) fun _ =>
    .bind (permits.console _) fun _ => permits.storeBytes (colRange accepted')

theorem stays_printAt (permits : Permits ok u 5) : Stays ok (handleHvPrintAt u) := by
  refine .bind (permits.arg 0 (by omega)) fun len => .bind (permits.arg 1 (by omega)) fun buf =>
    .bind (permits.arg 2 (by omega)) fun row => .bind (permits.arg 3 (by omega)) fun col =>
      .bind (permits.arg 4 (by omega)) fun color => ?_
  split
  swap
  · exact permits.crash
  rename_i accepted
  refine .bind (permits.console _) fun oldRow => .bind (permits.console _) fun oldCol =>
    .bind (permits.console _) fun oldColor => ?_
  extract_lets restore
  have restores : Stays ok restore :=
    .bind (permits.console _) fun _ => .bind (permits.console _) fun _ => stays_ret ()
  refine .bind (permits.console _) fun moved => ?_
  split
  · exact .bind restores fun _ => permits.crash
  refine .bind (permits.console _) fun colored => ?_
  split
  · exact .bind restores fun _ => permits.crash
  · exact .bind (permits.putbytes (printable_range accepted)) fun _ => restores

/-- How many words of the argument array a call reads, by its number. -/
def argWords : Nat → Nat
  | 0x01 => 1
  | 0x02 => 5
  | 0x03 => 2
  | 0x08 => 2
  | 0x09 => 1
  | 0x0A => 2
  | 0x0B => 2
  | 0x0C => 5
  | _ => 0

/-- The handler of a call meets a condition that permits the call, if what it writes to
`guest_resource` does. -/
theorem Permits.handler {call : Nat} {handler : Ureg → Program Unit}
    (permits : Permits ok u (argWords call)) (found : hvcallHandlerArray call = some handler)
    (iret : call = 0x02 → ∀ b h, ok (.setFlag b) h)
    (set : call = 0x03 → ∀ i eip h, ok (.setHandler i eip) h)
    (disable : call = 0x04 → ∀ h, ok (.setFlag false) h)
    (enable : call = 0x05 → ∀ h, ok (.setFlag true) h) : Stays ok (handler u) := by
  unfold hvcallHandlerArray at found
  split at found <;> cases found
  case h_1 => exact permits.setUreg _
  case h_2 => exact .bind (permits.arg 0 (by decide)) fun _ =>
      stays_act fun h => permits.other _ h trivial rfl
  case h_3 => exact stays_iret permits (iret rfl)
  case h_4 => exact stays_setidt permits (set rfl)
  case h_5 => exact stays_act (disable rfl)
  case h_6 => exact stays_act (enable rfl)
  case h_7 | h_8 => exact permits.crash
  case h_9 => exact stays_print permits
  case h_10 => exact stays_setColor permits
  case h_11 => exact stays_setCursor permits
  case h_12 => exact stays_getCursor permits
  case h_13 => exact stays_printAt permits

end

end OsKernel.Guest
