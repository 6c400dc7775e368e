/-
Saving and loading the context of a thread (`kern/context.S`).

A routine is the sequence of its instructions, each a function of the machine. Memory is that
of the kernel, which every address space maps in the same way: double words, at addresses that
are multiples of 4, and below 16 MB, so that no stack pointer wraps. The arithmetic flags after
`andl` and `orl` are left out: `save_and_load` loads the flags afterwards, and the caller of
`save_ureg` does not rely on them.

The frame of a thread that does not run is at the `esp` of its TCB: `Frame`. `save_and_load`
makes it for the thread that calls it and takes it apart for another one, and `save_ureg` makes
one for a new thread, with the way out of the kernel under it.
-/

import OsKernel.Lib.Stack

namespace OsKernel.Context

open OsKernel.Stack

/-! ### Instructions -/

structure Machine where
  eax : Nat
  ecx : Nat
  edx : Nat
  ebx : Nat
  esp : Nat
  ebp : Nat
  esi : Nat
  edi : Nat
  eflags : Nat
  eip : Nat
  cr3 : Nat
  ds : Nat
  es : Nat
  fs : Nat
  gs : Nat
  cs : Nat
  ss : Nat
  mem : Nat → Nat

namespace Machine

def push (m : Machine) (w : Nat) : Machine :=
  { m with esp := m.esp - 4, mem := Function.update m.mem (m.esp - 4) w }

/-- The word on top of the stack. -/
def top (m : Machine) : Nat := m.mem m.esp

/-- The stack with so many bytes less. -/
def drop (m : Machine) (n : Nat) : Machine := { m with esp := m.esp + n }

def store (m : Machine) (a w : Nat) : Machine := { m with mem := Function.update m.mem a w }

def pushal (m : Machine) : Machine :=
  let esp := m.esp
  let m := (((m.push m.eax).push m.ecx).push m.edx).push m.ebx
  (((m.push esp).push m.ebp).push m.esi).push m.edi

/-- `popal`, which passes over the word for `%esp`. -/
def popal (m : Machine) : Machine :=
  let m := { m with edi := m.top }.drop 4
  let m := { m with esi := m.top }.drop 4
  let m := { m with ebp := m.top }.drop 8
  let m := { m with ebx := m.top }.drop 4
  let m := { m with edx := m.top }.drop 4
  let m := { m with ecx := m.top }.drop 4
  { m with eax := m.top }.drop 4

def ret (m : Machine) : Machine := { m with eip := m.top }.drop 4

/-- `iret`, with the stack of an outer level if it returns to one. -/
def iret (m : Machine) : Machine :=
  let m := { m with eip := m.top }.drop 4
  let m := { m with cs := m.top }.drop 4
  let m := { m with eflags := m.top }.drop 4
  if m.cs &&& 3 = 0 then m else { m with esp := m.top, ss := m.mem (m.esp + 4) }

/-! ### Routines -/

/-- `movl offset(%edx), %ebx` and `pushl %ebx` -/
def pushField (m : Machine) (offset : Nat) : Machine :=
  let m := { m with ebx := m.mem (m.edx + offset) }
  m.push m.ebx

/-- `pushfl`, and the flags on top of the stack masked. The source takes the mask for ~0x200;
it is ~0x1FF, so `EFL_IF` stays. -/
def pushFlags (m : Machine) : Machine :=
  let m := m.push m.eflags
  let m := { m with ebx := m.top }.drop 4
  let m := { m with ebx := m.ebx &&& 4294966784 }
  m.push m.ebx

/-- What `save_ureg` does on the kernel stack of the new thread. -/
def pushUreg (wayToUserMode : Nat) (m : Machine) : Machine :=
  let m := [76, 72, 68, 64, 60, 56].foldl pushField m
  let m := m.push 0
  let m := [48, 44, 40, 36, 32, 28, 24, 20, 16, 12, 8, 4, 0].foldl pushField m
  let m := m.push wayToUserMode
  let m := m.pushFlags
  let m := m.pushal
  m.store (m.eax + 12) m.esp

/-- `save_ureg`, up to the switch to the kernel stack of the new thread -/
def openStack (m : Machine) : Machine :=
  let m := m.push m.ebp
  let m := { m with ebp := m.esp }
  let m := m.push m.ebx
  let m := { m with eax := m.mem (m.ebp + 8) }
  let m := { m with edx := m.mem (m.ebp + 12) }
  let m := { m with ecx := m.esp }
  { m with esp := m.eax + 16400 }

/-- `save_ureg`; `wayToUserMode` is the address of the code with this label. -/
def saveUreg (wayToUserMode : Nat) (m : Machine) : Machine :=
  let m := m.openStack
  let m := m.pushUreg wayToUserMode
  let m := { m with esp := m.ecx }
  let m := { m with ebx := m.mem (m.ebp - 4) }
  let m := { m with esp := m.ebp }
  let m := { m with ebp := m.top }.drop 4
  m.ret

/-- The code at `way_to_user_mode`, with which every handler wrapper ends as well. -/
def wayToUserMode (m : Machine) : Machine :=
  let m := m.drop 8
  let m := { m with ds := m.top }.drop 4
  let m := { m with es := m.top }.drop 4
  let m := { m with fs := m.top }.drop 4
  let m := { m with gs := m.top }.drop 4
  let m := m.popal
  let m := m.drop 4
  m.iret

/-- `save_and_load`, up to the store of the stack pointer -/
def save (m : Machine) : Machine :=
  let m := { m with eax := m.mem (m.esp + 4) }
  let m := { m with edx := m.mem (m.esp + 8) }
  let m := m.push m.eflags
  let m := m.pushal
  m.store (m.eax + 12) m.esp

/-- `save_and_load`, from the load of the process on -/
def load (m : Machine) : Machine :=
  let m := { m with eax := m.mem m.edx }
  let m := { m with eax := m.mem (m.eax + 16) }
  let m := { m with ecx := m.cr3 }
  let m := { m with ecx := m.ecx &&& 4095 }
  let m := { m with eax := m.eax ||| m.ecx }
  let m := { m with cr3 := m.eax }
  let m := { m with esp := m.mem (m.edx + 12) }
  let m := m.popal
  let m := { m with eflags := m.top }.drop 4
  m.ret

/-- `save_and_load` -/
def saveAndLoad (m : Machine) : Machine := m.save.load

end Machine

/-! ### Frames -/

/-- `ureg_t` -/
structure Ureg where
  cause : Nat
  cr2 : Nat
  ds : Nat
  es : Nat
  fs : Nat
  gs : Nat
  edi : Nat
  esi : Nat
  ebp : Nat
  zero : Nat
  ebx : Nat
  edx : Nat
  ecx : Nat
  eax : Nat
  errorCode : Nat
  eip : Nat
  cs : Nat
  eflags : Nat
  esp : Nat
  ss : Nat

/-- The `ureg_t` at an address. -/
def uregAt (mem : Nat → Nat) (u : Nat) : Ureg where
  cause := mem u
  cr2 := mem (u + 4)
  ds := mem (u + 8)
  es := mem (u + 12)
  fs := mem (u + 16)
  gs := mem (u + 20)
  edi := mem (u + 24)
  esi := mem (u + 28)
  ebp := mem (u + 32)
  zero := mem (u + 36)
  ebx := mem (u + 40)
  edx := mem (u + 44)
  ecx := mem (u + 48)
  eax := mem (u + 52)
  errorCode := mem (u + 56)
  eip := mem (u + 60)
  cs := mem (u + 64)
  eflags := mem (u + 68)
  esp := mem (u + 72)
  ss := mem (u + 76)

/-- How a thread has come to wait in `save_and_load`. -/
inductive Origin where
  /-- It has called it, in this state of the machine. -/
  | called (m : Machine)
  /-- It is new: `save_ureg` was given these registers. -/
  | forked (ureg : Ureg)

/-- The words of a `ureg_t` from its start, with 0 for `%eax`. -/
def Ureg.words (u : Ureg) : List Nat :=
  [u.cause, u.cr2, u.ds, u.es, u.fs, u.gs, u.edi, u.esi, u.ebp, u.zero, u.ebx, u.edx, u.ecx, 0,
    u.errorCode, u.eip, u.cs, u.eflags, u.esp, u.ss]

/-- The words that `pushfl` and `pushal` leave on the stack, the top first. -/
def Machine.frame (m : Machine) : List Nat :=
  [m.edi, m.esi, m.ebp, m.esp - 4, m.ebx, m.mem (m.esp + 8), m.ecx, m.mem (m.esp + 4), m.eflags]

/-- What the TCB at `t` holds for a thread that does not run, in its `esp` and on its kernel
stack. -/
def Frame (wayToUserMode t : Nat) (mem : Nat → Nat) : Origin → Prop
  | .called m => mem (t + 12) = m.esp - 36 ∧ Stacked mem (m.esp - 36) m.frame ∧
      ∀ a, m.esp ≤ a → a < t + 16400 → mem a = m.mem a
  | .forked ureg => mem (t + 12) = t + 16280 ∧ ∃ ws : List Nat, ws.length = 9 ∧
      Stacked mem (t + 16280) (ws ++ wayToUserMode :: ureg.words)

/-- The stack pointer in the TCB. -/
def Origin.base (t : Nat) : Origin → Nat
  | .called m => m.esp - 36
  | .forked _ => t + 16280

/-- The kernel stack has room for a call, and for its arguments above. -/
structure Room (t : Nat) (m : Machine) : Prop where
  below : t + 16 + 36 ≤ m.esp
  above : m.esp + 12 ≤ t + 16400

/-- A thread runs on from its call of `save_and_load`. -/
structure Resumed (t : Nat) (m m' : Machine) : Prop where
  esp : m'.esp = m.esp + 4
  eip : m'.eip = m.top
  stack : ∀ a, m.esp ≤ a → a < t + 16400 → m'.mem a = m.mem a
  ecx : m'.ecx = m.ecx
  ebx : m'.ebx = m.ebx
  ebp : m'.ebp = m.ebp
  esi : m'.esi = m.esi
  edi : m'.edi = m.edi
  eflags : m'.eflags = m.eflags
  /-- The two arguments of the call. -/
  eax : m'.eax = m.mem (m.esp + 4)
  edx : m'.edx = m.mem (m.esp + 8)

/-- A new thread starts in user mode. -/
structure Entered (u : Ureg) (m' : Machine) : Prop where
  ds : m'.ds = u.ds
  es : m'.es = u.es
  fs : m'.fs = u.fs
  gs : m'.gs = u.gs
  edi : m'.edi = u.edi
  esi : m'.esi = u.esi
  ebp : m'.ebp = u.ebp
  ebx : m'.ebx = u.ebx
  edx : m'.edx = u.edx
  ecx : m'.ecx = u.ecx
  eax : m'.eax = 0
  eip : m'.eip = u.eip
  cs : m'.cs = u.cs
  eflags : m'.eflags = u.eflags
  esp : m'.esp = u.esp
  ss : m'.ss = u.ss

/-- `%cr3` names the page directory of the process of a thread, by its TCB, and is what it was
within a page. -/
structure Names (t cr3 : Nat) (m' : Machine) : Prop where
  page : m'.cr3 / 4096 = m'.mem (m'.mem t + 16) / 4096
  bits : m'.cr3 = m'.mem (m'.mem t + 16) ||| (cr3 &&& 4095)

/-- A frame depends on the saved stack pointer and on the stack from there on. -/
theorem Frame.congr {label t : Nat} {mem mem' : Nat → Nat} {o : Origin} (frame : Frame label t mem o)
    (room : ∀ m, o = .called m → Room t m)
    (same : ∀ a, a = t + 12 ∨ o.base t ≤ a ∧ a < t + 16400 → mem' a = mem a) :
    Frame label t mem' o := by
  cases o with
  | called m =>
      obtain ⟨base, stacked, above⟩ := frame
      obtain ⟨low, high⟩ := room m rfl
      have length : m.frame.length = 9 := rfl
      refine ⟨(same _ (.inl rfl)).trans base, stacked.congr fun a from_ to_ => ?_, fun a from_ to_ => ?_⟩
      · exact same a (.inr ⟨from_, by omega⟩)
      · exact (same a (.inr ⟨Nat.le_trans (Nat.sub_le _ _) from_, to_⟩)).trans (above a from_ to_)
  | forked u =>
      obtain ⟨base, ws, length, stacked⟩ := frame
      refine ⟨(same _ (.inl rfl)).trans base, ws, length, stacked.congr fun a from_ to_ => ?_⟩
      have size : (ws ++ label :: u.words).length = 30 := by
        rw [List.length_append, length]
        rfl
      exact same a (.inr ⟨from_, by omega⟩)

/-! ### Loading -/

namespace Machine

variable {m : Machine} {t label : Nat}

theorem names_load : Names m.edx m.cr3 m.load := by
  refine ⟨?_, rfl⟩
  have offset : (m.cr3 &&& 4095) >>> 12 = 0 := by
    rw [show 4095 = 2 ^ 12 - 1 from rfl, Nat.and_two_pow_sub_one_eq_mod, Nat.shiftRight_eq_div_pow]
    omega
  show (m.mem (m.mem m.edx + 16) ||| (m.cr3 &&& 4095)) / 2 ^ 12 = m.mem (m.mem m.edx + 16) / 2 ^ 12
  rw [← Nat.shiftRight_eq_div_pow, Nat.shiftRight_or_distrib, offset, Nat.or_zero,
    Nat.shiftRight_eq_div_pow]

/-- What is loaded from a stack whose top is in the TCB. -/
theorem load_spec {p : Nat} {edi esi ebp x ebx edx ecx eax eflags eip : Nat}
    (base : m.mem (m.edx + 12) = p)
    (stacked : Stacked m.mem p [edi, esi, ebp, x, ebx, edx, ecx, eax, eflags, eip]) :
    m.load = { m with
      edi := edi, esi := esi, ebp := ebp, ebx := ebx, edx := edx, ecx := ecx, eax := eax
      eflags := eflags, eip := eip, esp := p + 40
      cr3 := m.mem (m.mem m.edx + 16) ||| (m.cr3 &&& 4095) } := by
  subst base
  obtain ⟨rfl, rfl, rfl, -, rfl, rfl, rfl, rfl, rfl, rfl, -⟩ := stacked
  rfl

theorem load_called {e : Machine} (target : m.edx = t) (room : Room t e)
    (frame : Frame label t m.mem (.called e)) : Resumed t e m.load := by
  obtain ⟨base, stacked, above⟩ := frame
  have ⟨below, top⟩ := room
  have under : e.esp - 36 + 4 * e.frame.length = e.esp := by
    rw [show e.frame.length = 9 from rfl]
    omega
  have whole : Stacked m.mem (e.esp - 36) (e.frame ++ [e.top]) := by
    refine stacked_append.mpr ⟨stacked, ?_, trivial⟩
    rw [under]
    exact above e.esp (Nat.le_refl _) (by omega)
  rw [load_spec (target ▸ base) whole]
  refine ⟨?_, rfl, above, rfl, rfl, rfl, rfl, rfl, rfl, rfl, rfl⟩
  dsimp only
  omega

/-- A new thread is taken to `way_to_user_mode`. -/
theorem load_forked {u : Ureg} (target : m.edx = t) (frame : Frame label t m.mem (.forked u)) :
    m.load.eip = label ∧ m.load.esp = t + 16320 ∧ Stacked m.load.mem (t + 16320) u.words := by
  obtain ⟨base, ws, length, stacked⟩ := frame
  match ws, length with
  | [edi, esi, ebp, x, ebx, edx, ecx, eax, eflags], _ =>
    have parts : Stacked m.mem (t + 16280)
        ([edi, esi, ebp, x, ebx, edx, ecx, eax, eflags, label] ++ u.words) := stacked
    obtain ⟨front, back⟩ := stacked_append.mp parts
    rw [load_spec (target ▸ base) front]
    exact ⟨rfl, rfl, back⟩

theorem popal_eq (m : Machine) : m.popal = { m with
    edi := m.mem m.esp, esi := m.mem (m.esp + 4), ebp := m.mem (m.esp + 8)
    ebx := m.mem (m.esp + 16), edx := m.mem (m.esp + 20), ecx := m.mem (m.esp + 24)
    eax := m.mem (m.esp + 28), esp := m.esp + 32 } := rfl

theorem iret_outer (user : m.mem (m.esp + 4) &&& 3 ≠ 0) : m.iret = { m with
    eip := m.mem m.esp, cs := m.mem (m.esp + 4), eflags := m.mem (m.esp + 8)
    esp := m.mem (m.esp + 12), ss := m.mem (m.esp + 16) } := if_neg user

theorem mem_iret (m : Machine) : m.iret.mem = m.mem ∧ m.iret.cr3 = m.cr3 := by
  rw [iret]
  split
  · exact ⟨rfl, rfl⟩
  · exact ⟨rfl, rfl⟩

theorem mem_wayToUserMode (m : Machine) : m.wayToUserMode.mem = m.mem ∧ m.wayToUserMode.cr3 = m.cr3 := by
  simp only [wayToUserMode, popal_eq, mem_iret, drop, and_self]

/-- The way to user mode, from the `ureg_t` on the stack. -/
theorem wayToUserMode_spec {u : Ureg} (stacked : Stacked m.mem m.esp u.words) (user : u.cs &&& 3 ≠ 0) :
    Entered u m.wayToUserMode := by
  obtain ⟨-, -, ds, es, fs, gs, edi, esi, ebp, -, ebx, edx, ecx, eax, -, eip, cs, eflags, esp, ss, -⟩ :=
    stacked
  simp only [Nat.add_assoc, Nat.reduceAdd] at ds es fs gs edi esi ebp ebx edx ecx eax eip cs eflags esp ss
  rw [← cs] at user
  rw [wayToUserMode, popal_eq]
  simp only [drop, top, Nat.add_assoc, Nat.reduceAdd]
  rw [iret_outer user]
  exact ⟨ds, es, fs, gs, edi, esi, ebp, ebx, edx, ecx, eax, eip, cs, eflags, esp, ss⟩

/-! ### Saving -/

theorem mem_save (own : m.mem (m.esp + 4) = t) : m.save.mem =
    Function.update (pushAll m.mem m.esp m.frame.reverse) (t + 12) (m.esp - 36) := by
  have stored : m.save.mem = Function.update (pushAll m.mem m.esp m.frame.reverse)
      (m.mem (m.esp + 4) + 12) (m.esp - 4 - 4 - 4 - 4 - 4 - 4 - 4 - 4 - 4) := rfl
  rw [stored, own]
  simp only [Nat.sub_sub, Nat.reduceAdd]

/-- `save_and_load` makes the frame of its caller, and changes no other memory. -/
theorem save_spec (label : Nat) (room : Room t m) (own : m.mem (m.esp + 4) = t) :
    Frame label t m.save.mem (.called m) ∧ m.save.edx = m.mem (m.esp + 8) ∧ m.save.cr3 = m.cr3 ∧
      ∀ a, a < t + 12 ∨ t + 16400 ≤ a → m.save.mem a = m.mem a := by
  obtain ⟨below, above⟩ := room
  have length : 4 * m.frame.reverse.length = 36 := rfl
  have pushed : Stacked (pushAll m.mem m.esp m.frame.reverse) (m.esp - 36) m.frame := by
    have stacked : Stacked (pushAll m.mem m.esp m.frame.reverse)
        (m.esp - 4 * m.frame.reverse.length) (m.frame.reverse.reverse ++ []) :=
      stacked_pushAll (by omega) trivial
    rwa [List.reverse_reverse, List.append_nil, length] at stacked
  rw [mem_save own]
  refine ⟨⟨Function.update_self _ _ _, ?_, fun a low high => ?_⟩, rfl, rfl, fun a outside => ?_⟩
  · refine pushed.congr fun a low _ => Function.update_of_ne ?_ _ _
    omega
  · rw [Function.update_of_ne (by omega), pushAll_other (.inr low) (by omega)]
  · rw [Function.update_of_ne (by omega), pushAll_other _ (by omega)]
    rw [length]
    omega

/-! ### New threads -/

/-- Words pushed between two states of the machine that agree in `%eax` and `%edx`. -/
structure Pushed (m m' : Machine) (ws : List Nat) : Prop where
  esp : m'.esp = m.esp - 4 * ws.length
  mem : m'.mem = pushAll m.mem m.esp ws
  eax : m'.eax = m.eax
  edx : m'.edx = m.edx

theorem Pushed.trans {m' m'' : Machine} {ws vs : List Nat} (first : Pushed m m' ws)
    (second : Pushed m' m'' vs) : Pushed m m'' (ws ++ vs) := by
  refine ⟨?_, ?_, second.eax.trans first.eax, second.edx.trans first.edx⟩
  · rw [second.esp, first.esp, List.length_append]
    omega
  · rw [second.mem, first.mem, first.esp, pushAll_append]

theorem pushed_push (m : Machine) (w : Nat) : Pushed m (m.push w) [w] := ⟨rfl, rfl, rfl, rfl⟩

/-- Fields of a structure that does not lie where they are pushed to. -/
theorem pushed_fields {m : Machine} {offsets : List Nat} (fits : 4 * offsets.length ≤ m.esp)
    (apart : ∀ o ∈ offsets, m.edx + o < m.esp - 4 * offsets.length ∨ m.esp ≤ m.edx + o) :
    Pushed m (offsets.foldl pushField m) (offsets.map fun o => m.mem (m.edx + o)) := by
  induction offsets generalizing m with
  | nil => exact ⟨rfl, rfl, rfl, rfl⟩
  | cons o offsets ih =>
      rw [List.length_cons] at fits apart
      have one : Pushed m (m.pushField o) [m.mem (m.edx + o)] := ⟨rfl, rfl, rfl, rfl⟩
      have esp : (m.pushField o).esp = m.esp - 4 := rfl
      have edx : (m.pushField o).edx = m.edx := rfl
      have apart' : ∀ p ∈ offsets, m.edx + p < m.esp - 4 * (offsets.length + 1) ∨
          m.esp ≤ m.edx + p := fun p mem => apart p (List.mem_cons_of_mem o mem)
      have rest : Pushed (m.pushField o) (offsets.foldl pushField (m.pushField o))
          (offsets.map fun p => (m.pushField o).mem ((m.pushField o).edx + p)) := by
        refine ih (by rw [esp]; omega) fun p mem => ?_
        rw [esp, edx]
        have outside := apart' p mem
        omega
      have same : offsets.map (fun p => (m.pushField o).mem ((m.pushField o).edx + p)) =
          offsets.map fun p => m.mem (m.edx + p) := by
        refine List.map_congr_left fun p mem => ?_
        have outside := apart' p mem
        refine Function.update_of_ne (show m.edx + p ≠ m.esp - 4 from ?_) _ _
        omega
      rw [same] at rest
      exact one.trans rest

theorem pushed_pushal (m : Machine) : Pushed m m.pushal
    [m.eax, m.ecx, m.edx, m.ebx, m.esp, m.ebp, m.esi, m.edi] := by
  have upper := (((pushed_push m m.eax).trans (pushed_push _ m.ecx)).trans
    (pushed_push _ m.edx)).trans (pushed_push _ m.ebx)
  exact (((upper.trans (pushed_push _ m.esp)).trans (pushed_push _ m.ebp)).trans
    (pushed_push _ m.esi)).trans (pushed_push _ m.edi)

theorem pushed_pushFlags (m : Machine) : Pushed m m.pushFlags [m.eflags &&& 4294966784] := by
  have back : m.esp - 4 + 4 - 4 = m.esp - 4 := Nat.add_sub_cancel (m.esp - 4) 4
  have flags : (m.push m.eflags).top = m.eflags := Function.update_self _ _ _
  refine ⟨back, ?_, rfl, rfl⟩
  show Function.update (Function.update m.mem (m.esp - 4) m.eflags) (m.esp - 4 + 4 - 4)
    ((m.push m.eflags).top &&& 4294966784) = _
  rw [back, flags, Function.update_idem]
  rfl

/-- Fields of a `ureg_t` that is apart from the kernel stack that it is pushed to. -/
theorem Pushed.fields {m' : Machine} {ws : List Nat} {u : Nat} (before : Pushed m m' ws)
    (edx : m.edx = u) (esp : m.esp = t + 16400) (apart : u + 80 ≤ t ∨ t + 16400 ≤ u)
    (offsets : List Nat) (inside : ∀ o ∈ offsets, o < 80)
    (room : 4 * ws.length + 4 * offsets.length ≤ 16400) :
    Pushed m (offsets.foldl pushField m') (ws ++ offsets.map fun o => m.mem (u + o)) := by
  have edx' : m'.edx = u := before.edx.trans edx
  have esp' : m'.esp = t + 16400 - 4 * ws.length := before.esp.trans (by rw [esp])
  have fields : Pushed m' (offsets.foldl pushField m')
      (offsets.map fun o => m'.mem (m'.edx + o)) := by
    refine pushed_fields (by omega) fun o mem => ?_
    have bound := inside o mem
    rw [edx', esp']
    omega
  have same : ∀ o ∈ offsets, m'.mem (m'.edx + o) = m.mem (u + o) := by
    intro o mem
    have bound := inside o mem
    rw [edx', before.mem]
    refine pushAll_other ?_ ?_ <;> rw [esp] <;> omega
  rw [List.map_congr_left same] at fields
  exact before.trans fields

/-- The frame of a new thread. -/
theorem pushUreg_spec {u : Nat} (eax : m.eax = t) (edx : m.edx = u) (esp : m.esp = t + 16400)
    (apart : u + 80 ≤ t ∨ t + 16400 ≤ u) :
    Frame label t (m.pushUreg label).mem (.forked (uregAt m.mem u)) ∧
      ∀ a, a < t + 12 ∨ t + 16400 ≤ a → (m.pushUreg label).mem a = m.mem a := by
  have start : Pushed m m [] := ⟨rfl, rfl, rfl, rfl⟩
  have upper := start.fields edx esp apart [76, 72, 68, 64, 60, 56] (by decide) (by decide)
  have lower := (upper.trans (pushed_push _ 0)).fields edx esp apart
    [48, 44, 40, 36, 32, 28, 24, 20, 16, 12, 8, 4, 0] (by decide)
    (show 4 * 7 + 4 * 13 ≤ 16400 by decide)
  have all := ((lower.trans (pushed_push _ label)).trans (pushed_pushFlags _)).trans (pushed_pushal _)
  obtain ⟨m', ws, whole, length, pushed⟩ : ∃ m' ws, m.pushUreg label = m'.store (m'.eax + 12) m'.esp ∧
      ws.length = 9 ∧ Pushed m m' (ws ++ label :: (uregAt m.mem u).words).reverse :=
    ⟨_, [_, _, _, _, _, _, _, _, _], rfl, rfl, all⟩
  have size : 4 * (ws ++ label :: (uregAt m.mem u).words).reverse.length = 120 := by
    rw [List.length_reverse, List.length_append, length]
    rfl
  have stacked : Stacked m'.mem (m.esp - 4 * (ws ++ label :: (uregAt m.mem u).words).reverse.length)
      ((ws ++ label :: (uregAt m.mem u).words).reverse.reverse ++ []) := by
    rw [pushed.mem]
    exact stacked_pushAll (by omega) trivial
  have top : t + 16400 - 120 = t + 16280 := by omega
  rw [List.reverse_reverse, List.append_nil, size, esp, top] at stacked
  have mem : (m.pushUreg label).mem = Function.update m'.mem (t + 12) (t + 16280) := by
    rw [whole, store, pushed.eax, pushed.esp, eax, esp, size, top]
  rw [mem]
  refine ⟨⟨Function.update_self _ _ _, ws, length, ?_⟩, fun a outside => ?_⟩
  · refine stacked.congr fun a low _ => Function.update_of_ne ?_ _ _
    omega
  · rw [Function.update_of_ne (by omega), pushed.mem]
    refine pushAll_other ?_ ?_ <;> rw [size, esp] <;> omega

/-- A call of `save_ureg` for the TCB `t` and the `ureg_t` at `u`: the TCB, the `ureg_t` and
what the call itself pushes lie apart. -/
structure ForkCall (t u : Nat) (m : Machine) : Prop where
  tcb : m.mem (m.esp + 4) = t
  ureg : m.mem (m.esp + 8) = u
  room : 8 ≤ m.esp
  stack : m.esp + 12 ≤ t ∨ t + 16400 + 8 ≤ m.esp
  apart : u + 80 ≤ t ∨ t + 16400 ≤ u
  above : m.esp ≤ u ∨ u + 80 + 8 ≤ m.esp

theorem uregAt_congr {mem mem' : Nat → Nat} {u : Nat} (same : ∀ o < 80, mem' (u + o) = mem (u + o)) :
    uregAt mem' u = uregAt mem u := by
  unfold uregAt
  rw [show mem' u = mem u from same 0 (by decide)]
  congr 1 <;> exact same _ (by decide)

theorem mem_openStack (room : 8 ≤ m.esp) {a : Nat} (outside : a < m.esp - 8 ∨ m.esp ≤ a) :
    m.openStack.mem a = m.mem a := by
  show Function.update (Function.update m.mem (m.esp - 4) m.ebp) (m.esp - 4 - 4) m.ebx a = m.mem a
  rw [Function.update_of_ne (by omega), Function.update_of_ne (by omega)]

theorem openStack_spec {u : Nat} (call : ForkCall t u m) :
    m.openStack.eax = t ∧ m.openStack.edx = u ∧ m.openStack.esp = t + 16400 := by
  have argument : ∀ n, 4 ≤ n → m.openStack.mem (m.esp - 4 + n) = m.mem (m.esp + (n - 4)) :=
    fun n low => by
      have room := call.room
      rw [mem_openStack room (by omega)]
      congr 1
      omega
  have tcb : m.openStack.eax = t := (argument 8 (by decide)).trans call.tcb
  exact ⟨tcb, (argument 12 (by decide)).trans call.ureg, congrArg (· + 16400) tcb⟩

/-- `save_ureg` makes the frame of a new thread. -/
theorem saveUreg_spec (label : Nat) {u : Nat} (call : ForkCall t u m) :
    Frame label t (m.saveUreg label).mem (.forked (uregAt m.mem u)) ∧
      ∀ a, a < t + 12 ∨ t + 16400 ≤ a → a < m.esp - 8 ∨ m.esp ≤ a →
        (m.saveUreg label).mem a = m.mem a := by
  obtain ⟨eax, edx, esp⟩ := openStack_spec call
  obtain ⟨frame, other⟩ : Frame label t (m.openStack.pushUreg label).mem
      (.forked (uregAt m.openStack.mem u)) ∧ _ := pushUreg_spec eax edx esp call.apart
  have room := call.room
  have above := call.above
  have same : uregAt m.openStack.mem u = uregAt m.mem u :=
    uregAt_congr fun o small => mem_openStack room (by omega)
  exact ⟨same ▸ frame, fun a outside other' => (other a outside).trans (mem_openStack room other')⟩

end Machine

end OsKernel.Context
