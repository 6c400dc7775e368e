/-
The virtual IDT of a guest.

`hv_setidt` compares `irqno` with `VIRTUAL_IDT_LEN` from above only. With a number that
is not negative it writes one slot of the virtual IDT or nothing; with a negative one it
writes a word somewhere else. `setidt_frame_iff` says this of every run of a guest: what
`hv_setidt` writes, and what the slots hold, are as they should be exactly when no call
with a negative number changes anything.
-/

import OsKernel.Guest.Confine
import OsKernel.Guest.Push

namespace OsKernel.Guest

open OsKernel.Vm Prog Run

/-! ### Runs of a guest -/

inductive Event where
  /-- The guest stores a byte into its memory. -/
  | store (v : Word) (b : Byte)
  /-- It is interrupted, or makes a hypervisor call. -/
  | interrupt (u : Ureg) (key : Word)

namespace Host

def step (h : Host) : Event → Host
  | .store v b => if h.alive ∧ InGuest v then h.put v [b] else h
  | .interrupt u key => if h.alive then (h.interrupt u key).1 else h

/-- The word at `virtual_idt[i]`. -/
def idt (h : Host) (i : Word) : Word := wordAt h.mem (h.slot i)

def presentWord (h : Host) (v : Word) : Bool :=
  h.present v && h.present (v + 1) && h.present (v + 2) && h.present (v + 3)

/-- The arguments `irqno` and `eip` of a call of `hv_setidt`, when they can be read. -/
def setidt? (h : Host) : Event → Option (Word × Word)
  | .interrupt u _ =>
      if h.alive ∧ u.cause = hvInt ∧ u.eax = 0x03 ∧ h.presentWord (argAddr u 0) ∧
          h.presentWord (argAddr u 1) then
        some (wordAt h.mem (argAddr u 0), wordAt h.mem (argAddr u 1))
      else none
  | _ => none

end Host

/-- An index into the virtual IDT, as an `int`. -/
def IsVector (irqno : Word) : Prop := 0 ≤ irqno.toInt ∧ irqno.toInt < virtualIdtLen

instance (irqno : Word) : Decidable (IsVector irqno) := inferInstanceAs (Decidable (_ ∧ _))

theorem isVector_iff {i : Word} : IsVector i ↔ i.toNat < virtualIdtLen := by
  rw [IsVector, BitVec.toInt_eq_toNat_cond]
  have := i.isLt
  simp only [virtualIdtLen]
  split <;> omega

/-- A call of `hv_setidt` changes nothing in the host but the slot that `irqno` names, and
nothing at all when there is no such slot. -/
def Framed (h : Host) (e : Event) : Prop :=
  ∀ irqno eip, h.setidt? e = some (irqno, eip) →
    (∀ w, (IsVector irqno → 4 ≤ (w - h.slot irqno).toNat) → (h.step e).mem w = h.mem w) ∧
      (h.step e).page = h.page ∧ (h.step e).pcb = h.pcb ∧ (h.step e).console = h.console ∧
      (h.step e).exited = h.exited

/-- A call of `hv_setidt` with a negative number finds the word in place that it stores. -/
def Idle (h : Host) (e : Event) : Prop :=
  ∀ irqno eip, h.setidt? e = some (irqno, eip) → 0 ≤ irqno.toInt ∨
    h.present (h.slot irqno) = true ∧ h.present (h.slot irqno + 3) = true ∧ h.idt irqno = idtEntry eip

/-! ### What a call of `hv_setidt` does -/

section
variable {h : Host} {e : Event} {irqno eip : Word}

theorem eval_load {v : Word} (alive : h.alive = true) (there : h.present v = true) :
    (act (.load v)).eval exec Host.alive h = (h, some (h.mem v)) := by
  rw [eval_perform, exec, if_pos there, if_pos alive]

theorem eval_loadWord {v : Word} (alive : h.alive = true) (there : h.presentWord v = true) :
    (loadWord v).eval exec Host.alive h = (h, some (wordAt h.mem v)) := by
  simp only [Host.presentWord, Bool.and_eq_true] at there
  obtain ⟨⟨⟨p0, p1⟩, p2⟩, p3⟩ := there
  rw [loadWord, eval_bind_some (eval_load alive p0), eval_bind_some (eval_load alive p1),
    eval_bind_some (eval_load alive p2), eval_bind_some (eval_load alive p3)]
  rfl

theorem alive_trap (h : Host) (u : Ureg) : (h.trap u).alive = true := rfl

theorem mem_trap (h : Host) (u : Ureg) : (h.trap u).mem = h.mem := rfl

theorem presentWord_trap (h : Host) (u : Ureg) (v : Word) :
    (h.trap u).presentWord v = h.presentWord v := rfl

theorem eval_arg {u : Ureg} {i : Nat} (there : h.presentWord (argAddr u i) = true) :
    (arg u i).eval exec Host.alive (h.trap u) =
      (h.trap u, some (wordAt h.mem (argAddr u i))) := by
  rw [arg, eval_loadWord (alive_trap h u) ((presentWord_trap h u _).trans there), mem_trap]

theorem eval_handleHvSetidt {u : Ureg} (first : h.presentWord (argAddr u 0) = true)
    (second : h.presentWord (argAddr u 1) = true) :
    (handleHvSetidt u).eval exec Host.alive (h.trap u) =
      (setidt (wordAt h.mem (argAddr u 0)) (wordAt h.mem (argAddr u 1))).eval exec Host.alive
        (h.trap u) := by
  rw [handleHvSetidt, eval_bind_some (eval_arg first), eval_bind_some (eval_arg second)]

/-- The host after `setidt`. -/
def Host.setIdt (h : Host) (irqno eip : Word) : Host :=
  if irqno.toInt < virtualIdtLen then (exec (.setHandler irqno (idtEntry eip)) h).1 else h

theorem eval_setidt (irqno eip : Word) (h : Host) :
    ((setidt irqno eip).eval exec Host.alive h).1 = h.setIdt irqno eip := by
  unfold setidt Host.setIdt
  split
  · exact eval_perform_state _ _
  · rfl

/-- A step that is a call of `hv_setidt`. -/
theorem step_setidt (call : h.setidt? e = some (irqno, eip)) :
    ∃ u, h.alive = true ∧ h.step e = (h.trap u).setIdt irqno eip := by
  cases e with
  | store v b => cases call
  | interrupt u key =>
      simp only [Host.setidt?, Option.ite_none_right_eq_some, Option.some.injEq,
        Prod.mk.injEq] at call
      obtain ⟨⟨alive, cause, number, first, second⟩, rfl, rfl⟩ := call
      have handler : handleVirtualInterrupt u key =
          (handleHvSetidt u >>= fun _ => pure Outcome.hypercall) := by
        rw [handleVirtualInterrupt, if_pos cause, number]
        rfl
      refine ⟨u, alive, ?_⟩
      rw [Host.step, if_pos alive, Host.interrupt, handler,
        eval_map_state (handleHvSetidt u) fun _ => Outcome.hypercall,
        eval_handleHvSetidt first second, eval_setidt]

/-! ### The bytes of the PCB -/

/-- The actions that leave the byte at this offset of the PCB alone. -/
def Spares (off : Nat) : Act → Host → Prop
  | .store v _, _ => userMemStart ≤ v.toNat
  | .setHandler .., _ => False
  | .setFlag _, _ => off ≠ 36
  | _, _ => True

theorem pcb_exec (a : Act) (h : Host) : (exec a h).1.pcb = h.pcb := by
  cases a with
  | load | store | setHandler =>
      simp only [exec]
      split <;> rfl
  | mapAndClear v => exact (h.mapAndClear_spec v).1.pcb
  | _ => rfl

/-- The byte at an offset of the PCB, from `interrupt_enable_flag` on. -/
theorem pcbByte_exec {off : Nat} (low : 36 ≤ off) (high : off < pcbSize) {a : Act} (h : Host)
    (spares : Spares off a h) :
    (exec a h).1.mem (h.pcb + .ofNat 32 off) = h.mem (h.pcb + .ofNat 32 off) := by
  have placed := h.placed
  simp only [pcbSize, virtualIdtLen, userMemStart] at placed high
  have below : (h.pcb + .ofNat 32 off).toNat < userMemStart := by
    simp only [userMemStart]
    bv_omega
  have crash : ∀ status, (h.vanish status).mem (h.pcb + .ofNat 32 off) = h.mem (h.pcb + .ofNat 32 off) := by
    intro status
    refine place_other ?_
    simp only [statusOffset, length_bytesOf]
    bv_omega
  cases a with
  | load v =>
      simp only [exec]
      split
      · rfl
      · exact crash _
  | store v b =>
      have user : userMemStart ≤ v.toNat := spares
      simp only [exec]
      split
      · refine place_other ?_
        simp only [userMemStart] at user below
        simp only [List.length_singleton]
        bv_omega
      · exact crash _
  | mapAndClear v =>
      exact ((h.mapAndClear_spec v).1.keeps _ (h.present_kernel below)).2
  | setFlag b =>
      have other : off ≠ 36 := spares
      refine place_other ?_
      simp only [flagOffset, List.length_singleton]
      bv_omega
  | setHandler i eip => exact spares.elim
  | vanish status => exact crash status
  | _ => rfl

theorem permits_spares (off : Nat) (u : Ureg) (n : Nat) : Permits (Spares off) u n := by
  refine ⟨fun i _ => stays_arg (fun _ _ => trivial) u i, fun a h confined resource => ?_⟩
  cases a with
  | store v b => exact confined.1
  | setFlag | setHandler => cases resource
  | _ => trivial

theorem pushes_spares (off : Nat) : Pushes (Spares off) := by
  refine ⟨fun _ _ => trivial, fun v b h user => ?_⟩
  simp only [userPageStart, userMemStart, pageSize] at user
  simp only [Spares, userMemStart]
  omega

/-- An argument that cannot be read crashes the guest. -/
theorem eval_loadWord_absent {v : Word} (alive : h.alive = true)
    (absent : h.presentWord v = false) : (loadWord v).eval exec Host.alive h = (h.fault, none) := by
  have crash : ∀ {w : Word} {k : Byte → Program Word}, h.present w = false →
      (act (.load w) >>= k).eval exec Host.alive h = (h.fault, none) := by
    intro w k gone
    have faults : (exec (.load w) h).1 = h.fault := by
      rw [exec, if_neg (by rw [gone]; decide)]
    rw [eval_bind, eval_perform, faults]
    rfl
  rw [loadWord]
  by_cases p0 : h.present v = true
  swap
  · exact crash (by simpa using p0)
  rw [eval_bind_some (eval_load alive p0)]
  by_cases p1 : h.present (v + 1) = true
  swap
  · exact crash (by simpa using p1)
  rw [eval_bind_some (eval_load alive p1)]
  by_cases p2 : h.present (v + 2) = true
  swap
  · exact crash (by simpa using p2)
  rw [eval_bind_some (eval_load alive p2)]
  rw [Host.presentWord, p0, p1, p2] at absent
  exact crash absent

/-- A call of `hv_setidt` with arguments that cannot be read crashes the guest. -/
theorem setidt_absent {u : Ureg}
    (absent : (h.presentWord (argAddr u 0) && h.presentWord (argAddr u 1)) = false) :
    (handleHvSetidt u).eval exec Host.alive (h.trap u) = ((h.trap u).fault, none) := by
  rw [handleHvSetidt]
  cases first : h.presentWord (argAddr u 0) with
  | false => exact eval_bind_none (eval_loadWord_absent (alive_trap h u) first) _
  | true =>
      rw [first, Bool.true_and] at absent
      rw [eval_bind_some (eval_arg first)]
      exact eval_bind_none (eval_loadWord_absent (alive_trap h u) absent) _

/-- An interrupt that is no call of `hv_setidt`, or one with arguments that cannot be read. -/
theorem interrupt_other {u : Ureg} {key : Word} (alive : h.alive = true)
    (other : h.setidt? (.interrupt u key) = none) :
    (h.interrupt u key).1 = (h.trap u).fault ∨ ¬ (u.cause = hvInt ∧ u.eax = 0x03) := by
  by_cases call : u.cause = hvInt ∧ u.eax = 0x03
  swap
  · exact .inr call
  left
  have absent : (h.presentWord (argAddr u 0) && h.presentWord (argAddr u 1)) = false := by
    simp only [Host.setidt?, alive, call, true_and, ite_eq_right_iff] at other
    rw [Bool.and_eq_false_iff]
    by_contra both
    simp only [not_or, Bool.not_eq_false] at both
    cases other both
  have handler : handleVirtualInterrupt u key =
      (handleHvSetidt u >>= fun _ => pure Outcome.hypercall) := by
    rw [handleVirtualInterrupt, if_pos call.1, call.2]
    rfl
  rw [Host.interrupt, handler, eval_map_state (handleHvSetidt u) fun _ => Outcome.hypercall,
    setidt_absent absent]

/-! ### Steps that leave the virtual IDT alone -/

/-- An interrupt keeps what the actions keep that spare a byte of the PCB. -/
theorem pcbByte_interrupt {off : Nat} (low : 36 ≤ off) (high : off < pcbSize) {u : Ureg} {key : Word}
    (meets : (handleVirtualInterrupt u key).Meets exec Host.alive (Spares off) (h.trap u)) :
    (h.interrupt u key).1.mem (h.pcb + .ofNat 32 off) = h.mem (h.pcb + .ofNat 32 off) := by
  have kept := meets.keeps (P := fun s => s.pcb = h.pcb ∧
    s.mem (h.pcb + .ofNat 32 off) = h.mem (h.pcb + .ofNat 32 off)) ?_ ⟨rfl, rfl⟩
  · exact kept.2
  · rintro a s spares ⟨pcb, same⟩
    refine ⟨(pcb_exec a s).trans pcb, ?_⟩
    have byte := pcbByte_exec low high s spares
    rw [pcb] at byte
    exact byte.trans same

theorem pcb_step (h : Host) (e : Event) : (h.step e).pcb = h.pcb := by
  cases e with
  | store v b =>
      rw [Host.step]
      split <;> rfl
  | interrupt u key =>
      rw [Host.step]
      split
      · exact eval_keeps (P := fun s => s.pcb = h.pcb) (fun a s same => (pcb_exec a s).trans same)
          (handleVirtualInterrupt u key) (s := h.trap u) rfl
      · rfl

/-- The bytes of the virtual IDT, when the step is no call of `hv_setidt`. -/
theorem idtByte_step {off : Nat} (low : 44 ≤ off) (high : off < pcbSize)
    (other : h.setidt? e = none) :
    (h.step e).mem (h.pcb + .ofNat 32 off) = h.mem (h.pcb + .ofNat 32 off) := by
  have placed := h.placed
  cases e with
  | store v b =>
      rw [Host.step]
      split
      swap
      · rfl
      rename_i inside
      have user := inside.2.1
      refine place_other ?_
      simp only [pcbSize, virtualIdtLen, userMemStart, List.length_singleton] at *
      bv_omega
  | interrupt u key =>
      rw [Host.step]
      split
      swap
      · rfl
      rename_i alive
      obtain crash | call := interrupt_other alive other
      · rw [crash]
        exact pcbByte_exec (a := .vanish Host.guestCrashStatus) (by omega) high (h.trap u) trivial
      · refine pcbByte_interrupt (by omega) high ?_
        refine (stays_interrupt (pushes_spares off) (permits_spares off u 0).other
          (fun _ => by simp only [Spares]; omega) (fun isCall handler found => ?_) (h.trap u)
          trivial).1
        have flag : ∀ b h, Spares off (.setFlag b) h := fun _ _ => by
          simp only [Spares]
          omega
        refine (permits_spares off u _).handler found (fun _ => flag) (fun number => ?_)
          (fun _ => flag false) fun _ => flag true
        exact absurd ⟨isCall, BitVec.eq_of_toNat_eq number⟩ call

/-- The bytes of a slot, as offsets in the PCB. -/
theorem slot_byte {i w : Word} (vector : IsVector i) (inside : (w - h.slot i).toNat < 4) :
    ∃ off, 44 ≤ off ∧ off < pcbSize ∧ w = h.pcb + .ofNat 32 off := by
  have lt := isVector_iff.mp vector
  refine ⟨44 + 4 * i.toNat + (w - h.slot i).toNat, by omega, ?_, ?_⟩ <;>
    simp only [Host.slot, virtualIdtOffset, pcbSize, virtualIdtLen] at * <;> bv_omega

theorem idt_step_other {i : Word} (vector : IsVector i) (other : h.setidt? e = none) :
    (h.step e).idt i = h.idt i := by
  have slot : (h.step e).slot i = h.slot i := by rw [Host.slot, Host.slot, pcb_step]
  rw [Host.idt, slot, Host.idt]
  refine wordAt_congr fun w inside => ?_
  obtain ⟨off, low, high, rfl⟩ := slot_byte vector inside
  exact idtByte_step low high other

/-! ### What `setidt` writes -/

theorem slot_present {i : Word} (vector : IsVector i) :
    h.present (h.slot i) = true ∧ h.present (h.slot i + 3) = true := by
  have lt := isVector_iff.mp vector
  have placed := h.placed
  constructor
  all_goals refine h.present_kernel ?_
  all_goals simp only [Host.slot, virtualIdtOffset, pcbSize, virtualIdtLen, userMemStart] at *
  all_goals bv_omega

theorem setIdt_of_present (small : irqno.toInt < virtualIdtLen) (first : h.present (h.slot irqno) = true)
    (last : h.present (h.slot irqno + 3) = true) :
    h.setIdt irqno eip = h.put (h.slot irqno) (bytesOf (idtEntry eip)) := by
  rw [Host.setIdt, if_pos small, exec, if_pos ⟨first, last⟩]

theorem setIdt_of_absent (small : irqno.toInt < virtualIdtLen)
    (absent : ¬ (h.present (h.slot irqno) = true ∧ h.present (h.slot irqno + 3) = true)) :
    h.setIdt irqno eip = h.fault := by
  rw [Host.setIdt, if_pos small, exec, if_neg absent]

/-- A slot after another one has been written. -/
theorem idt_put_other {i j : Word} {w : Word} (vi : IsVector i) (vj : IsVector j) (ne : i ≠ j) :
    (h.put (h.slot j) (bytesOf w)).idt i = h.idt i := by
  have li := isVector_iff.mp vi
  have lj := isVector_iff.mp vj
  refine wordAt_congr fun v inside => place_other ?_
  simp only [length_bytesOf, Host.slot, Host.put, virtualIdtLen] at *
  bv_omega

theorem idt_put_self {i w : Word} : (h.put (h.slot i) (bytesOf w)).idt i = w := wordAt_place _ _ _

/-- A call that finds its word in place, or has no slot, leaves the memory alone. -/
theorem mem_setIdt (idle : 0 ≤ irqno.toInt ∨ h.present (h.slot irqno) = true ∧
      h.present (h.slot irqno + 3) = true ∧ h.idt irqno = idtEntry eip) (none : ¬ IsVector irqno) :
    h.setIdt irqno eip = h := by
  by_cases small : irqno.toInt < virtualIdtLen
  · obtain low | ⟨first, last, same⟩ := idle
    · exact absurd ⟨low, small⟩ none
    · rw [setIdt_of_present small first last, ← same, Host.put, Host.idt, place_wordAt]
  · rw [Host.setIdt, if_neg small]

/-! ### Runs -/

/-- A call of `hv_setidt` is framed exactly when it is idle or its number is not negative. -/
theorem framed_iff (h : Host) (e : Event) : Framed h e ↔ Idle h e := by
  constructor
  · intro framed irqno eip call
    by_cases low : 0 ≤ irqno.toInt
    · exact .inl low
    obtain ⟨mem, -, -, -, exited⟩ := framed irqno eip call
    obtain ⟨u, alive, step⟩ := step_setidt call
    have small : irqno.toInt < virtualIdtLen := by omega
    have running : h.exited = none := by simpa [Host.alive] using alive
    by_cases there : h.present (h.slot irqno) = true ∧ h.present (h.slot irqno + 3) = true
    · refine .inr ⟨there.1, there.2, ?_⟩
      have same : (h.step e).mem = h.mem := funext fun w => mem w fun vector => absurd vector.1 low
      rw [step, setIdt_of_present (h := h.trap u) small there.1 there.2] at same
      rw [Host.idt, ← same]
      exact wordAt_place _ _ _
    · rw [step, setIdt_of_absent (h := h.trap u) small there, running] at exited
      cases exited
  · intro idle irqno eip call
    obtain ⟨u, alive, step⟩ := step_setidt call
    have running : h.exited = none := by simpa [Host.alive] using alive
    rw [step, running]
    by_cases vector : IsVector irqno
    · obtain ⟨first, last⟩ := slot_present (h := h) vector
      rw [setIdt_of_present (h := h.trap u) vector.2 first last]
      exact ⟨fun w out => place_other (out vector), rfl, rfl, rfl, rfl⟩
    · rw [mem_setIdt (h := h.trap u) (idle irqno eip call) vector]
      exact ⟨fun _ _ => rfl, rfl, rfl, rfl, rfl⟩

/-- The host, and what has been stored in which slot so far. -/
abbrev Tracked := Host × List (Word × Word)

def track (s : Tracked) (e : Event) : Tracked :=
  (s.1.step e, match s.1.setidt? e with
    | some (irqno, eip) => if IsVector irqno then (irqno, idtEntry eip) :: s.2 else s.2
    | none => s.2)

/-- Every slot holds 0, or a word that a call of `hv_setidt` has stored in it. -/
def Held (s : Tracked) : Prop := ∀ i, IsVector i → s.1.idt i = 0 ∨ (i, s.1.idt i) ∈ s.2

theorem held_track {s : Tracked} (held : Held s) (idle : Idle s.1 e) : Held (track s e) := by
  obtain ⟨h, stored⟩ := s
  intro i vector
  cases call : h.setidt? e with
  | none =>
      have same := idt_step_other vector call
      simp only [track, call, same]
      exact held i vector
  | some args =>
      obtain ⟨irqno, eip⟩ := args
      obtain ⟨u, -, step⟩ := step_setidt call
      simp only [track, call, step]
      by_cases slot : IsVector irqno
      · obtain ⟨first, last⟩ := slot_present (h := h) slot
        rw [if_pos slot, setIdt_of_present (h := h.trap u) slot.2 first last]
        by_cases same : i = irqno
        · subst same
          right
          rw [idt_put_self]
          exact List.mem_cons_self
        · rw [idt_put_other (h := h.trap u) vector slot same]
          exact (held i vector).imp id (List.mem_cons_of_mem _)
      · rw [if_neg slot, mem_setIdt (h := h.trap u) (idle irqno eip call) slot]
        exact held i vector

/-- In a run from an empty virtual IDT the calls of `hv_setidt` change nothing but the slots
they name, and the slots hold what was stored in them, exactly when each call has a number
that is not negative or finds its word in place. -/
theorem setidt_frame_iff (h : Host) (empty : ∀ i, IsVector i → h.idt i = 0) (es : List Event) :
    (StepsMeet track (fun s e => Framed s.1 e) (h, []) es ∧ Along track Held (h, []) es) ↔
      StepsMeet track (fun s e => Idle s.1 e) (h, []) es := by
  constructor
  · rintro ⟨framed, -⟩
    exact framed.mono fun (s : Tracked) e => (framed_iff s.1 e).mp
  · intro idle
    refine ⟨idle.mono fun (s : Tracked) e => (framed_iff s.1 e).mpr, ?_⟩
    have start : Held (h, []) := fun i vector => .inl (empty i vector)
    exact along_of_stepsMeet (I := Held) (P := Held) (fun _ held => held)
      (fun _ _ held idle => held_track held idle) start idle

end

theorem idt_emptyHost (i : Word) : (emptyHost 0).idt i = 0 := by
  have zero : (emptyHost 0).mem = fun _ => 0 := funext fun w => ite_self 0
  rw [Host.idt, zero]
  exact show ofBytes 0 0 0 0 = 0 by decide

/-- A call of `hv_setidt` with its arguments at the start of the memory of the guest. -/
def setidtCall : Event := .interrupt { exitRegs with eax := 0x03, esp := 0 } 0

/-- A host whose guest has put the arguments there. -/
def callingHost (irqno eip : Word) : Host :=
  { emptyHost 0 with
    mem := place (place (emptyHost 0).mem base (bytesOf irqno)) (base + 4) (bytesOf eip) }

theorem idt_callingHost {i : Word} (irqno eip : Word) (vector : IsVector i) :
    (callingHost irqno eip).idt i = 0 := by
  rw [← idt_emptyHost i, Host.idt, Host.idt]
  refine wordAt_congr fun w inside => ?_
  obtain ⟨off, low, high, rfl⟩ := slot_byte vector inside
  simp only [pcbSize, virtualIdtLen] at high
  have apart : ∀ v : Word, 0x1000000 ≤ v.toNat → v.toNat ≤ 0x1000004 →
      4 ≤ ((callingHost irqno eip).pcb + .ofNat 32 off - v).toNat := by
    intro v above below
    have pcb : (callingHost irqno eip).pcb = 0x200000 := rfl
    rw [pcb]
    bv_omega
  change place (place (emptyHost 0).mem base (bytesOf irqno)) (base + 4) (bytesOf eip) _ = _
  rw [place_other, place_other]
  · exact apart base (by decide) (by decide)
  · exact apart (base + 4) (by decide) (by decide)

/-- The guest gives itself a handler for the interrupt 32. -/
theorem setidt_frame_iff_empty :
    (StepsMeet track (fun (s : Tracked) e => Framed s.1 e) (callingHost 32 0x4000, []) [setidtCall] ∧
      Along track Held (callingHost 32 0x4000, []) [setidtCall]) ∧
    ((callingHost 32 0x4000).step setidtCall).idt 32 = idtEntry 0x4000 ∧
    idtEntry 0x4000 ≠ 0 := by
  refine ⟨(setidt_frame_iff (callingHost 32 0x4000) (fun i => idt_callingHost 32 0x4000)
    [setidtCall]).mpr ⟨?_, trivial⟩, by decide +kernel, by decide⟩
  intro irqno eip call
  have args : (callingHost 32 0x4000).setidt? setidtCall = some (32, 0x4000) := by decide +kernel
  cases args.symm.trans call
  exact .inl (by decide)

/-- A host whose guest has put -2 and 1 there. -/
def negativeHost : Host := callingHost (-2) 1

/-- The call with -2 sets the flag of virtual interrupts. -/
theorem setidt_sets_flag : ¬ Framed negativeHost setidtCall ∧
    negativeHost.mem (negativeHost.pcb + flagOffset) = 0 ∧
    (negativeHost.step setidtCall).mem (negativeHost.pcb + flagOffset) = 1 := by
  have before : negativeHost.mem (negativeHost.pcb + flagOffset) = 0 := by decide +kernel
  have after : (negativeHost.step setidtCall).mem (negativeHost.pcb + flagOffset) = 1 := by
    decide +kernel
  refine ⟨fun framed => ?_, before, after⟩
  have same := (framed (-2) 1 (by decide +kernel)).1 (negativeHost.pcb + flagOffset)
    fun vector => absurd vector (by decide)
  rw [before, after] at same
  exact absurd same (by decide)

end OsKernel.Guest
