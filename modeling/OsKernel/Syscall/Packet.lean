/-
The system calls that take an argument packet, and what they check of it.

A handler finds the address of its packet in `%esi` and reads words of it; the words are
numbers, or addresses of buffers, strings and arrays of strings. `is_readable` and
`is_writable` say whether a range of memory of the user may be touched. Here every access
through an address that comes from the user is an action, and the state keeps the ranges
that were accepted: `Guarded` says of an access that one of them covers it.

What the kernel does besides (the files, the console, the loader in its new directory) is
part of the state of the kernel that a handler is given, or an update of memory.
-/

import OsKernel.Lib.Check
import OsKernel.Memory.Loader
import Mathlib.Algebra.Group.Int.Defs
import Mathlib.Algebra.Group.Nat.Defs

namespace OsKernel.Packet

open OsKernel.Vm OsKernel.Memory Prog

/-- A range that `is_readable` or `is_writable` has accepted. -/
structure Range where
  addr : Nat
  size : Nat
  write : Bool
deriving DecidableEq

def Range.Covers (r : Range) (v : Nat) (write : Bool) : Prop :=
  r.addr ≤ v ∧ v < r.addr + r.size ∧ (write = true → r.write = true)

/-- The memory behind `%cr3`, while one handler runs. -/
structure User where
  mem : Mem
  cr3 : Nat
  accepted : List Range := []
  alive : Bool := true

/-! ### Checks and accesses -/

/-- One page of `is_readable`. -/
def readablePage (vm : VmState) (d v : Nat) : Bool :=
  match checkUserPage vm d v with
  | some .pdeNotPresent | some .pteNotPresent => getAvailability vm d v = some .available
  | some .zeroFrameMapped | some .newFrameMapped => true
  | none => false

/-- One page of `is_writable`. -/
def writablePage (vm : VmState) (d v : Nat) : Bool :=
  match checkUserPage vm d v with
  | some .pdeNotPresent | some .pteNotPresent => getAvailability vm d v = some .available
  | some .zeroFrameMapped => true
  | some .newFrameMapped => getAccess vm d v = some .readWrite
  | none => false

/-- The range lies in user space, and each of its pages passes. -/
def inUser (page : Nat → Bool) (addr size : Nat) : Bool :=
  size = 0 ∨ userMemStart ≤ addr ∧ size ≤ virtualAddrEnd - addr ∧ (pagesOf addr size).all page

/-- `is_readable` -/
def isReadable (vm : VmState) (d addr size : Nat) : Bool := inUser (readablePage vm d) addr size

/-- `is_writable` -/
def isWritable (vm : VmState) (d addr size : Nat) : Bool := inUser (writablePage vm d) addr size

/-- The memory after the page fault of an access of the kernel, if the page could be
repaired. -/
def repair (m : Mem) (d v : Nat) (write : Bool) : Option Mem :=
  match getAvailability m.vm d v with
  | some .available =>
      if write then match mapNewFrame m.vm d v with
        | (true, vm) => some ((m.withVm vm).clearPage d v)
        | (false, _) => none
      else match mapZeroFrame m.vm d v with
        | (true, vm) => some (m.withVm vm)
        | (false, _) => none
  | _ => none

/-- The memory with the page of `v` present. -/
def present (m : Mem) (d v : Nat) (write : Bool) : Option Mem :=
  if ((m.vm.dirs d).bind (ktranslate · v)).isSome then some m else repair m d v write

/-- A byte the kernel loads. -/
def kload (m : Mem) (d v : Nat) : UInt8 :=
  match (m.vm.dirs d).bind (ktranslate · v) with
  | some a => m.phys a
  | none => 0

inductive Act where
  | isReadable (addr size : Nat)
  | isWritable (addr size : Nat)
  | load (v : Nat)
  | store (v : Nat) (b : UInt8)
  /-- `memset` of a page. -/
  | clearPage (v : Nat)
  /-- What the kernel does on its own. -/
  | kernel (f : Nat → Mem → Mem × Bool)

abbrev Act.Result : Act → Type
  | .isReadable .. | .isWritable .. | .kernel _ => Bool
  | .load _ => UInt8
  | .store .. | .clearPage _ => Unit

abbrev Program := Prog Act Act.Result

def User.accept (s : User) (r : Range) (ok : Bool) : User × Bool :=
  (if ok then { s with accepted := r :: s.accepted } else s, ok)

/-- An access to the page of `v`; a fault that cannot be repaired kills the thread. -/
def User.access {α : Type} (s : User) (v : Nat) (write : Bool) (dead : α)
    (go : Mem → Mem × α) : User × α :=
  match present s.mem s.cr3 v write with
  | some m => ({ s with mem := (go m).1 }, (go m).2)
  | none => ({ s with alive := false }, dead)

def exec : (a : Act) → User → User × a.Result
  | .isReadable addr size, s =>
      s.accept ⟨addr, size, false⟩ (Packet.isReadable s.mem.vm s.cr3 addr size)
  | .isWritable addr size, s =>
      s.accept ⟨addr, size, true⟩ (Packet.isWritable s.mem.vm s.cr3 addr size)
  | .load v, s => s.access v false 0 fun m => (m, kload m s.cr3 v)
  | .store v b, s => s.access v true () fun m => ((m.kstore s.cr3 v b).getD m, ())
  | .clearPage v, s => s.access v true () fun m => (m.clearPage s.cr3 v, ())
  | .kernel f, s => ({ s with mem := (f s.cr3 s.mem).1 }, (f s.cr3 s.mem).2)

/-- A check of this call has accepted the byte, for this kind of access. -/
def User.Accepts (s : User) (v : Nat) (write : Bool) : Prop :=
  ∃ r ∈ s.accepted, r.Covers v write

/-- A check has accepted every byte that the action touches. -/
def Guarded : Act → User → Prop
  | .load v, s => s.Accepts v false
  | .store v _, s => s.Accepts v true
  | .clearPage v, s => ∀ i < pageSize, s.Accepts (v + i) true
  | _, _ => True

/-- No load goes below the user space. -/
def AboveKernel : Act → User → Prop
  | .load v, _ => userMemStart ≤ v
  | _, _ => True

/-! ### Words and strings -/

def act (a : Act) : Program a.Result := perform a

def wrap (v : Nat) : Nat := v % virtualAddrEnd

/-- A double word. -/
def loadWord (v : Nat) : Program Nat := do
  let b₀ ← act (.load (wrap v))
  let b₁ ← act (.load (wrap (v + 1)))
  let b₂ ← act (.load (wrap (v + 2)))
  let b₃ ← act (.load (wrap (v + 3)))
  pure (UInt8.toNat b₀ + UInt8.toNat b₁ * 2 ^ 8 + UInt8.toNat b₂ * 2 ^ 16 +
    UInt8.toNat b₃ * 2 ^ 24)

/-- A word as an `int`. -/
def toInt (w : Nat) : Int := if w < 2 ^ 31 then w else w - 2 ^ 32

/-- `arg_array[i]` -/
def arg (esi i : Nat) : Program Nat := loadWord (esi + 4 * i)

/-- `n` bytes from `v` on. -/
def loadBytes (v : Nat) : Nat → Program Unit
  | 0 => pure ()
  | n + 1 => do
      let _ ← act (.load (wrap v))
      loadBytes (v + 1) n

def storeBytes (v : Nat) : List UInt8 → Program Unit
  | [] => pure ()
  | b :: bs => do
      act (.store (wrap v) b)
      storeBytes (v + 1) bs

/-- The comparison of a string with a name. -/
def strcmp (v : Nat) : List UInt8 → Program Bool
  | [] => do
      let b ← act (.load (wrap v))
      pure (b == (0 : UInt8))
  | c :: cs => do
      let b ← act (.load (wrap v))
      if b == c then strcmp (v + 1) cs else pure false

/-- A string up to its zero byte, looked for in `fuel` bytes. -/
def loadString (v : Nat) : Nat → Program Nat
  | 0 => pure 0
  | fuel + 1 => do
      let b ← act (.load (wrap v))
      if b == (0 : UInt8) then pure 0
      else do
        let n ← loadString (v + 1) fuel
        pure (n + 1)

/-- The number of pointers before the null pointer, looked for in `fuel` words. -/
def countArgs (argvec : Nat) : Nat → Nat → Program Nat
  | argc, 0 => pure argc
  | argc, fuel + 1 => do
      if (← loadWord (argvec + 4 * argc)) = 0 then pure argc else countArgs argvec (argc + 1) fuel

/-! ### The state of the kernel -/

structure Kern where
  /-- What `get_thread_alive_count` reports, if it succeeds. -/
  aliveCount : Option Nat
  physFrames : Nat
  /-- `exec2obj_userapp_TOC`: names and contents. -/
  toc : List (List UInt8 × List UInt8)
  /-- The ranges of a file that `elf_check_header` and `elf_load_helper` read, and
  whether they find an executable in it. -/
  elfReads : List (Nat × Nat)
  isElf : Bool
  /-- The rest of `load_executable`, in the new directory. -/
  load : Nat → Mem → Mem × Bool
  /-- The characters in the buffer when `readline` starts to copy. -/
  line : List UInt8
  cursor : Nat × Nat
  /-- `set_cursor` succeeds. -/
  validPos : Int → Int → Bool
  /-- `check_eflags` accepts the flags. -/
  checkEflags : Nat → Bool
  /-- A bound for the length of a string. -/
  fuel : Nat

/-- `BUF_LEN` -/
def bufLen : Nat := 1024

/-- `sizeof(ureg_t)` -/
def uregSize : Nat := 80

/-- `EXCEPTION_STACK_SIZE_MIN` -/
def exceptionStackSizeMin : Nat := uregSize + 7 * 4

/-- `HANDLER_SIZE_MIN` -/
def handlerSizeMin : Nat := 1

/-- `malloc` -/
def malloc : Program Bool := act (.kernel fun _ m => (m.withVm m.vm.malloc.2, m.vm.malloc.1))

/-- The file a string names. -/
def findFile (filename : Nat) : List (List UInt8 × List UInt8) → Program (Option (List UInt8))
  | [] => pure none
  | (name, bytes) :: files => do
      if ← strcmp filename name then pure (some bytes) else findFile filename files

/-- `getbytes`, up to the copy into the buffer. -/
def getbytes (k : Kern) (filename : Nat) (off size : Int) : Program (Option (List UInt8)) :=
  if filename = 0 then pure none
  else do
    match ← findFile filename k.toc with
    | none => pure none
    | some bytes =>
        if off < 0 ∨ size < 0 ∨ (bytes.length : Int) ≤ off then pure none
        else pure (some ((bytes.drop off.toNat).take size.toNat))

/-- What a handler leaves in `%eax`; none when all registers are new. -/
abbrev Eax := Option Int

def fail : Program Eax := pure (some (-1))

/-! ### The handlers -/

/-- The strings of `argvec`, each copied to the kernel heap. -/
def copyArgs (k : Kern) (argvec : Nat) : List Nat → Program Bool
  | [] => pure true
  | i :: is => do
      let _ ← loadString (← loadWord (argvec + 4 * i)) k.fuel
      if ← malloc then
        let _ ← loadString (← loadWord (argvec + 4 * i)) k.fuel
        copyArgs k argvec is
      else pure false

/-- The part of `load_executable` that works with the strings of the user. -/
def loadExecutable (k : Kern) (execname argvec : Nat) : Program Eax := do
  if execname = 0 ∨ argvec = 0 then fail
  else if ← forAll (fun r : Nat × Nat => do
      pure (← getbytes k execname (toInt r.1) (toInt r.2)).isSome) k.elfReads then
    if k.isElf = false then fail
    else if ← act (.kernel fun _ m =>
        (m.withVm (constructPageDir m.vm).2, (constructPageDir m.vm).1.isSome)) then
      let _ ← loadString execname k.fuel
      if ← malloc then
        let _ ← loadString execname k.fuel
        let argc ← countArgs argvec 0 k.fuel
        if ← (if argc = 0 then pure true else malloc) then
          if ← copyArgs k argvec (List.range argc) then
            if ← act (.kernel k.load) then pure none else fail
          else fail
        else fail
      else fail
    else fail
  else fail

/-- `handle_exec` -/
def handleExec (k : Kern) (esi : Nat) : Program Eax :=
  if k.aliveCount = some 1 then do
    let execname ← arg esi 0
    let argvec ← arg esi 1
    loadExecutable k execname argvec
  else fail

/-- `handle_print` -/
def handlePrint (esi : Nat) : Program Eax := do
  let len ← arg esi 0
  let buf ← arg esi 1
  if toInt len < 0 then fail
  else if ← act (.isReadable buf len) then
    loadBytes buf len
    pure (some 0)
  else fail

/-- `handle_readline` -/
def handleReadline (k : Kern) (esi : Nat) : Program Eax := do
  let len ← arg esi 0
  let buf ← arg esi 1
  if toInt len < 0 ∨ bufLen < len then fail
  else if ← act (.isWritable buf len) then
    if len = 0 then pure (some 0)
    else do
      storeBytes buf (k.line.take len)
      pure (some (k.line.take len).length)
  else fail

/-- `get_availability`, `set_availability` and `map_new_frame` of one page of
`new_pages`. -/
def openPage (v d : Nat) (m : Mem) : Mem × Bool :=
  if getAvailability m.vm d v = some .unavailable then
    match setAvailability m.vm d v 1 with
    | (false, vm) => (m.withVm vm, false)
    | (true, vm) => match mapNewFrame vm d v with
        | (true, vm) => (m.withVm vm, true)
        | (false, vm) => (m.withVm (setAvailability vm d v 0).2, false)
  else (m, false)

/-- The rollback of `new_pages`. -/
def closePage (v d : Nat) (m : Mem) : Mem × Bool :=
  (m.withVm (setAvailability (unmapFrame m.vm d v).2 d v 0).2, true)

def closePages (base n : Nat) : Program Bool :=
  forAll (fun i => act (.kernel (closePage (wrap (base + i * pageSize))))) (List.range n)

/-- The loop of `new_pages`, with its rollback. -/
def openPages (base : Nat) : Nat → Nat → Program Bool
  | _, 0 => pure true
  | i, n + 1 => do
      if ← act (.kernel (openPage (wrap (base + i * pageSize)))) then
        act (.clearPage (wrap (base + i * pageSize)))
        openPages base (i + 1) n
      else do
        let _ ← closePages base i
        pure false

/-- `handle_new_pages` -/
def handleNewPages (k : Kern) (esi : Nat) : Program Eax := do
  let base ← arg esi 0
  let len := toInt (← arg esi 1)
  let count := len.tdiv pageSize
  if base / pageSize * pageSize = base ∧ 0 < count ∧
      count < k.physFrames - userPageStart / pageSize ∧ count * pageSize = len then
    if ← openPages base 0 count.toNat then
      if ← malloc then pure (some 0)
      else do
        let _ ← closePages base count.toNat
        fail
    else fail
  else fail

/-- `load_ureg`: the words of a `ureg_t`, from the last one down. -/
def loadUreg (ureg : Nat) : Nat → Program Unit
  | 0 => pure ()
  | n + 1 => do
      let _ ← loadWord (ureg + 4 * n)
      loadUreg ureg n

/-- `handle_swexn` -/
def handleSwexn (k : Kern) (esi : Nat) : Program Eax := do
  let stack ← arg esi 0
  let handler ← arg esi 1
  let _ ← arg esi 2
  let ureg ← arg esi 3
  if ← (if stack ≠ 0 ∧ handler ≠ 0 then do
      if ← act (.isWritable (wrap (stack + virtualAddrEnd - exceptionStackSizeMin))
          exceptionStackSizeMin) then
        act (.isReadable handler handlerSizeMin)
      else pure false
    else pure true : Program Bool) then
    if ureg = 0 then pure (some 0)
    else if ← act (.isReadable ureg uregSize) then
      if k.checkEflags (← loadWord (ureg + 4 * 17)) then
        loadUreg ureg (uregSize / 4)
        pure none
      else fail
    else fail
  else fail

/-- `handle_readfile` -/
def handleReadfile (k : Kern) (esi : Nat) : Program Eax := do
  let filename ← arg esi 0
  let buf ← arg esi 1
  let count ← arg esi 2
  let offset ← arg esi 3
  if toInt count < 0 then fail
  else if ← act (.isWritable buf count) then
    match ← getbytes k filename (toInt offset) (toInt count) with
    | none => fail
    | some bytes =>
        if buf = 0 then fail
        else do
          storeBytes buf bytes
          pure (some bytes.length)
  else fail

/-- `handle_set_cursor_pos` -/
def handleSetCursorPos (k : Kern) (esi : Nat) : Program Eax := do
  let row ← arg esi 0
  let col ← arg esi 1
  if k.validPos (toInt row) (toInt col) then pure (some 0) else fail

/-- `handle_get_cursor_pos` -/
def handleGetCursorPos (k : Kern) (esi : Nat) : Program Eax := do
  let row ← arg esi 0
  let col ← arg esi 1
  if ← act (.isWritable row 4) then
    if ← act (.isWritable col 4) then
      storeBytes row (word k.cursor.1)
      storeBytes col (word k.cursor.2)
      pure (some 0)
    else fail
  else fail

/-- The calls with an argument packet. -/
inductive Call where
  | exec
  | print
  | readline
  | newPages
  | swexn
  | readfile
  | setCursorPos
  | getCursorPos
deriving DecidableEq

def Call.handle (k : Kern) (esi : Nat) : Call → Program Eax
  | .exec => handleExec k esi
  | .print => handlePrint esi
  | .readline => handleReadline k esi
  | .newPages => handleNewPages k esi
  | .swexn => handleSwexn k esi
  | .readfile => handleReadfile k esi
  | .setCursorPos => handleSetCursorPos k esi
  | .getCursorPos => handleGetCursorPos k esi

/-! ### What is checked -/

/-- In this call every access through an address of the user goes to a byte that was
accepted before, and no load goes below the user space. -/
def Call.Checked (call : Call) (k : Kern) (esi : Nat) (s : User) : Prop :=
  (call.handle k esi).Meets Packet.exec User.alive Guarded { s with accepted := [] } ∧
    (call.handle k esi).Meets Packet.exec User.alive AboveKernel { s with accepted := [] }

/-- Nobody has checked the packet when its first word is read. -/
theorem not_meets_arg {α : Type} {esi i : Nat} {f : Nat → Program α} {s : User} :
    ¬ (arg esi i >>= f).Meets exec User.alive Guarded { s with accepted := [] } := by
  rintro ⟨⟨r, mem, -⟩, -⟩
  cases mem

/-- No handler checks its packet. Only `exec` can fail before it looks at it, when the
process does not have exactly one thread. -/
theorem packet_checked_iff (call : Call) (k : Kern) (esi : Nat) (s : User) :
    call.Checked k esi s ↔ call = .exec ∧ k.aliveCount ≠ some 1 := by
  constructor
  · rintro ⟨guarded, -⟩
    cases call with
    | exec =>
        refine ⟨rfl, fun single => ?_⟩
        rw [Call.handle, handleExec, if_pos single] at guarded
        exact not_meets_arg guarded
    | print | readline | newPages | swexn | readfile | setCursorPos | getCursorPos =>
        exact absurd guarded not_meets_arg
  · rintro ⟨rfl, several⟩
    rw [Call.Checked, Call.handle, handleExec, if_neg several]
    exact ⟨trivial, trivial⟩

/-- A kernel with no file and a process with one thread. -/
def bareKern : Kern where
  aliveCount := some 1
  physFrames := 4100
  toc := []
  elfReads := []
  isElf := false
  load := fun _ m => (m, false)
  line := []
  cursor := (0, 0)
  validPos := fun row col => 0 ≤ row ∧ row < 25 ∧ 0 ≤ col ∧ col < 80
  checkEflags := fun _ => true
  fuel := 16

/-- A process with no memory of its own. -/
def bareUser : User where
  mem := ⟨⟨[], Function.update (fun _ => none) 0 (some freshDir), 1, fun _ => true⟩, fun _ => 0⟩
  cr3 := 0

/-- `set_cursor_pos` of a packet in the kernel succeeds. -/
theorem packet_unchecked_kernel_word : ¬ Call.setCursorPos.Checked bareKern 0x100000 bareUser ∧
    ((Call.setCursorPos.handle bareKern 0x100000).eval exec User.alive bareUser).2 =
      some (some 0) := by
  refine ⟨fun h => not_meets_arg h.1, ?_⟩
  decide +kernel

/-! ### What is left unchecked -/

/-- The accesses that no handler checks: the packet, the strings of `exec` and the file
name of `readfile`, and the pages that `new_pages` has just mapped. -/
def Unchecked (call : Call) (esi : Nat) : Act → Prop
  | .load v => call = .exec ∨ call = .readfile ∨ ∃ i < 16, v = wrap (esi + i)
  | .clearPage _ => call = .newPages
  | _ => False

/-- Ranges that were accepted, all of them in user space. -/
structure Known (rs : List Range) (s : User) : Prop where
  known : ∀ r ∈ rs, r ∈ s.accepted
  user : ∀ r ∈ s.accepted, r.size = 0 ∨ userMemStart ≤ r.addr ∧ r.addr + r.size ≤ virtualAddrEnd

/-- An action that is unchecked by design, or was checked. -/
def Ok (call : Call) (esi : Nat) (a : Act) (s : User) : Prop :=
  Unchecked call esi a ∨ Guarded a s ∧ AboveKernel a s

section
variable {call : Call} {esi : Nat} {rs : List Range}

theorem inUser_range {page : Nat → Bool} {addr size : Nat} (h : inUser page addr size = true) :
    size = 0 ∨ userMemStart ≤ addr ∧ addr + size ≤ virtualAddrEnd := by
  unfold inUser at h
  rcases of_decide_eq_true h with none | ⟨low, fits, -⟩
  · exact .inl none
  · by_cases none : size = 0
    · exact .inl none
    · exact .inr ⟨low, by omega⟩

theorem Known.accept {s : User} (h : Known rs s) {r : Range} {ok : Bool}
    (range : ok = true → r.size = 0 ∨ userMemStart ≤ r.addr ∧ r.addr + r.size ≤ virtualAddrEnd) :
    Known (if ok then r :: rs else rs) (s.accept r ok).1 := by
  cases ok with
  | false => exact h
  | true =>
      refine ⟨fun r' mem => ?_, fun r' mem => ?_⟩
      · rcases List.mem_cons.mp mem with rfl | mem
        · exact List.mem_cons_self
        · exact List.mem_cons_of_mem _ (h.known r' mem)
      · rcases List.mem_cons.mp mem with rfl | mem
        · exact range rfl
        · exact h.user r' mem

theorem Known.access {α : Type} {s : User} (h : Known rs s) {v : Nat} {write : Bool} {dead : α}
    {go : Mem → Mem × α} : Known rs (s.access v write dead go).1 := by
  unfold User.access
  split <;> exact ⟨h.known, h.user⟩

/-- A check adds its range, and no action takes one away. -/
theorem Known.exec {s : User} (h : Known rs s) (a : Act) : Known rs (exec a s).1 := by
  have keep : ∀ {r : Range} {ok : Bool} {s' : User}, Known (if ok then r :: rs else rs) s' →
      Known rs s' := by
    intro r ok s' h
    refine ⟨fun r' mem => h.known r' ?_, h.user⟩
    split
    · exact List.mem_cons_of_mem _ mem
    · exact mem
  cases a with
  | isReadable addr size => exact keep (h.accept inUser_range)
  | isWritable addr size => exact keep (h.accept inUser_range)
  | load v => exact h.access
  | store v b => exact h.access
  | clearPage v => exact h.access
  | kernel f => exact ⟨h.known, h.user⟩

/-- The judgement about a piece of a handler. -/
abbrev Guards {α : Type} (call : Call) (esi : Nat) (rs : List Range) (p : Program α)
    (Q : α → User → Prop) : Prop :=
  Does exec User.alive (Ok call esi) (Known rs) p Q

theorem guards_act {a : Act} (check : ∀ s, Known rs s → Ok call esi a s) :
    Guards call esi rs (act a) fun _ => Known rs :=
  .perform check fun _ h _ => h.exec a

theorem guards_isReadable (addr size : Nat) : Guards call esi rs (act (.isReadable addr size))
    fun ok => Known (if ok then ⟨addr, size, false⟩ :: rs else rs) :=
  .perform (fun _ _ => .inr ⟨trivial, trivial⟩) fun _ h _ => h.accept inUser_range

theorem guards_isWritable (addr size : Nat) : Guards call esi rs (act (.isWritable addr size))
    fun ok => Known (if ok then ⟨addr, size, true⟩ :: rs else rs) :=
  .perform (fun _ _ => .inr ⟨trivial, trivial⟩) fun _ h _ => h.accept inUser_range

theorem guards_kernel (f : Nat → Mem → Mem × Bool) :
    Guards call esi rs (act (.kernel f)) fun _ => Known rs :=
  guards_act fun _ _ => .inr ⟨trivial, trivial⟩

theorem guards_word {v : Nat}
    (each : ∀ i < 4, ∀ s, Known rs s → Ok call esi (.load (wrap (v + i))) s) :
    Guards call esi rs (loadWord v) fun _ => Known rs :=
  .bind (guards_act (each 0 (by omega))) fun _ => .bind (guards_act (each 1 (by omega))) fun _ =>
    .bind (guards_act (each 2 (by omega))) fun _ => .bind (guards_act (each 3 (by omega))) fun _ =>
      .ret fun _ h => h

/-- A word of the packet. -/
theorem guards_arg {i : Nat} (lt : i < 4) : Guards call esi rs (arg esi i) fun _ => Known rs := by
  refine guards_word fun j hj s _ => .inl (.inr (.inr ⟨4 * i + j, by omega, ?_⟩))
  rw [Nat.add_assoc]

/-- A byte of a range that was accepted. -/
theorem Known.covers {s : User} (h : Known rs s) {r : Range} (mem : r ∈ rs) {i : Nat}
    (lt : i < r.size) : s.Accepts (wrap (r.addr + i)) r.write ∧ userMemStart ≤ wrap (r.addr + i) := by
  have there := h.known r mem
  obtain none | ⟨low, fits⟩ := h.user r there
  · omega
  have small : wrap (r.addr + i) = r.addr + i := Nat.mod_eq_of_lt (by omega)
  rw [small]
  exact ⟨⟨r, there, by omega, by omega, id⟩, by omega⟩

theorem User.Accepts.read {s : User} {v : Nat} {write : Bool} (h : s.Accepts v write) :
    s.Accepts v false := by
  obtain ⟨r, mem, low, high, -⟩ := h
  exact ⟨r, mem, low, high, fun no => nomatch no⟩

theorem guards_loadBytes {r : Range} (mem : r ∈ rs) (n i : Nat) (le : i + n ≤ r.size) :
    Guards call esi rs (loadBytes (r.addr + i) n) fun _ => Known rs := by
  induction n generalizing i with
  | zero => exact .ret fun _ h => h
  | succ n ih =>
      refine .bind (guards_act fun s h => .inr ?_) fun _ => ih (i + 1) (by omega)
      obtain ⟨accepted, above⟩ := h.covers mem (by omega : i < r.size)
      exact ⟨accepted.read, above⟩

theorem guards_storeBytes {r : Range} (mem : r ∈ rs) (write : r.write = true) (bs : List UInt8)
    (i : Nat) (le : i + bs.length ≤ r.size) :
    Guards call esi rs (storeBytes (r.addr + i) bs) fun _ => Known rs := by
  induction bs generalizing i with
  | nil => exact .ret fun _ h => h
  | cons b bs ih =>
      rw [List.length_cons] at le
      refine .bind (guards_act fun s h => .inr ⟨?_, trivial⟩) fun _ => ih (i + 1) (by omega)
      have accepted := (h.covers mem (by omega : i < r.size)).1
      rwa [write] at accepted

theorem guards_fail : Guards call esi rs fail fun _ _ => True := .ret fun _ _ => trivial

/-- The postcondition of a handler says nothing. -/
theorem Guards.done {α : Type} {p : Program α} {Q : α → User → Prop} (h : Guards call esi rs p Q) :
    Guards call esi rs p fun _ _ => True :=
  h.conseq (fun _ h => h) fun _ _ _ => trivial

/-! ### Strings -/

/-- In `exec` and `readfile` every load is unchecked. -/
def Strings (call : Call) : Prop := call = .exec ∨ call = .readfile

theorem guards_load (strings : Strings call) (v : Nat) :
    Guards call esi rs (act (.load v)) fun _ => Known rs :=
  guards_act fun _ _ => .inl (strings.imp id .inl)

theorem guards_anyWord (strings : Strings call) (v : Nat) :
    Guards call esi rs (loadWord v) fun _ => Known rs :=
  guards_word fun _ _ _ _ => .inl (strings.imp id .inl)

theorem guards_strcmp (strings : Strings call) (v : Nat) (name : List UInt8) :
    Guards call esi rs (strcmp v name) fun _ => Known rs := by
  induction name generalizing v with
  | nil => exact .bind (guards_load strings _) fun _ => .ret fun _ h => h
  | cons c cs ih =>
      refine .bind (guards_load strings _) fun b => ?_
      split
      · exact ih (v + 1)
      · exact .ret fun _ h => h

theorem guards_loadString (strings : Strings call) (fuel v : Nat) :
    Guards call esi rs (loadString v fuel) fun _ => Known rs := by
  induction fuel generalizing v with
  | zero => exact .ret fun _ h => h
  | succ fuel ih =>
      refine .bind (guards_load strings _) fun b => ?_
      split
      · exact .ret fun _ h => h
      · exact .bind (ih (v + 1)) fun _ => .ret fun _ h => h

theorem guards_countArgs (strings : Strings call) (argvec fuel argc : Nat) :
    Guards call esi rs (countArgs argvec argc fuel) fun _ => Known rs := by
  induction fuel generalizing argc with
  | zero => exact .ret fun _ h => h
  | succ fuel ih =>
      refine .bind (guards_anyWord strings _) fun w => ?_
      split
      · exact .ret fun _ h => h
      · exact ih (argc + 1)

theorem guards_findFile (strings : Strings call) (filename : Nat)
    (files : List (List UInt8 × List UInt8)) :
    Guards call esi rs (findFile filename files) fun _ => Known rs := by
  induction files with
  | nil => exact .ret fun _ h => h
  | cons file files ih =>
      refine .bind (guards_strcmp strings _ _) fun same => ?_
      split
      · exact .ret fun _ h => h
      · exact ih

theorem guards_getbytes (strings : Strings call) (k : Kern) (filename : Nat) (off size : Int) :
    Guards call esi rs (getbytes k filename off size) fun bytes s =>
      Known rs s ∧ ∀ bs, bytes = some bs → bs.length ≤ size.toNat := by
  have none : ∀ {s : User}, Known rs s → Known rs s ∧
      ∀ bs, (none : Option (List UInt8)) = some bs → bs.length ≤ size.toNat :=
    fun h => ⟨h, fun _ eq => nomatch eq⟩
  unfold getbytes
  split
  · exact .ret fun _ => none
  refine .bind (guards_findFile strings _ _) fun file => ?_
  cases file with
  | none => exact .ret fun _ => none
  | some bytes =>
      dsimp only
      split
      · exact .ret fun _ => none
      · refine .ret fun _ h => ⟨h, fun bs eq => ?_⟩
        cases eq
        exact List.length_take_le _ _

/-! ### The handlers -/

theorem guards_exec (k : Kern) : Guards .exec esi rs (handleExec k esi) fun _ _ => True := by
  have strings : Strings .exec := .inl rfl
  unfold handleExec
  split
  swap
  · exact guards_fail
  refine .bind (guards_arg (by omega)) fun execname => .bind (guards_arg (by omega)) fun argvec => ?_
  unfold loadExecutable
  split
  · exact guards_fail
  refine .bind (.forAll fun r _ => .bind ((guards_getbytes strings k _ _ _).conseq (fun _ h => h)
    fun _ _ h => h.1) fun _ => .ret fun _ h => h) fun found => ?_
  split
  swap
  · exact guards_fail
  split
  · exact guards_fail
  refine .bind (guards_kernel _) fun made => ?_
  split
  swap
  · exact guards_fail
  refine .bind (guards_loadString strings _ _) fun _ => .bind (guards_kernel _) fun got => ?_
  split
  swap
  · exact guards_fail
  refine .bind (guards_loadString strings _ _) fun _ =>
    .bind (guards_countArgs strings _ _ _) fun argc => ?_
  refine .bind (Q := fun _ => Known rs) ?_ fun got => ?_
  · split
    · exact .ret fun _ h => h
    · exact guards_kernel _
  split
  swap
  · exact guards_fail
  refine .bind (Q := fun _ => Known rs) ?_ fun copied => ?_
  · generalize List.range argc = is
    induction is with
    | nil => exact .ret fun _ h => h
    | cons i is ih =>
        refine .bind (guards_anyWord strings _) fun _ => .bind (guards_loadString strings _ _) fun _ =>
          .bind (guards_kernel _) fun got => ?_
        split
        · exact .bind (guards_anyWord strings _) fun _ =>
            .bind (guards_loadString strings _ _) fun _ => ih
        · exact .ret fun _ h => h
  split
  swap
  · exact guards_fail
  refine .bind (guards_kernel _) fun loaded => ?_
  split
  · exact .ret fun _ _ => trivial
  · exact guards_fail

theorem guards_print : Guards call esi rs (handlePrint esi) fun _ _ => True := by
  refine .bind (guards_arg (by omega)) fun len => .bind (guards_arg (by omega)) fun buf => ?_
  split
  · exact guards_fail
  refine .bind (guards_isReadable buf len) fun ok => ?_
  cases ok with
  | false => exact guards_fail.conseq (fun _ h => h) fun _ _ h => h
  | true =>
      exact .bind (guards_loadBytes List.mem_cons_self len 0 (by simp)) fun _ =>
        .ret fun _ _ => trivial

theorem guards_readline (k : Kern) :
    Guards call esi rs (handleReadline k esi) fun _ _ => True := by
  refine .bind (guards_arg (by omega)) fun len => .bind (guards_arg (by omega)) fun buf => ?_
  split
  · exact guards_fail
  refine .bind (guards_isWritable buf len) fun ok => ?_
  cases ok with
  | false => exact guards_fail
  | true =>
      change Guards call esi (⟨buf, len, true⟩ :: rs) (if len = 0 then _ else _) fun _ _ => True
      split
      · exact .ret fun _ _ => trivial
      · refine .bind (guards_storeBytes List.mem_cons_self rfl _ 0 ?_) fun _ =>
          .ret fun _ _ => trivial
        have := List.length_take_le len k.line
        dsimp only
        omega

theorem guards_closePages (base n : Nat) :
    Guards call esi rs (closePages base n) fun _ => Known rs :=
  .forAll fun _ _ => guards_kernel _

theorem guards_openPages (base n i : Nat) :
    Guards .newPages esi rs (openPages base i n) fun _ => Known rs := by
  induction n generalizing i with
  | zero => exact .ret fun _ h => h
  | succ n ih =>
      refine .bind (guards_kernel _) fun opened => ?_
      split
      · exact .bind (guards_act fun _ _ => .inl rfl) fun _ => ih (i + 1)
      · exact .bind (guards_closePages base i) fun _ => .ret fun _ h => h

theorem guards_newPages (k : Kern) :
    Guards .newPages esi rs (handleNewPages k esi) fun _ _ => True := by
  refine .bind (guards_arg (by omega)) fun base => .bind (guards_arg (by omega)) fun len => ?_
  dsimp only
  split
  swap
  · exact guards_fail
  refine .bind (guards_openPages _ _ _) fun opened => ?_
  split
  swap
  · exact guards_fail
  refine .bind (guards_kernel _) fun got => ?_
  split
  · exact .ret fun _ _ => trivial
  · exact .bind (guards_closePages _ _) fun _ => guards_fail

theorem guards_loadUreg {ureg : Nat} (mem : ⟨ureg, uregSize, false⟩ ∈ rs) (n : Nat)
    (le : 4 * n ≤ uregSize) : Guards call esi rs (loadUreg ureg n) fun _ => Known rs := by
  induction n with
  | zero => exact .ret fun _ h => h
  | succ n ih =>
      refine .bind (guards_word fun i hi s h => .inr ?_) fun _ => ih (by omega)
      have covered := h.covers mem (show 4 * n + i < uregSize by omega)
      rw [← Nat.add_assoc] at covered
      exact ⟨covered.1.read, covered.2⟩

theorem guards_swexn (k : Kern) : Guards call esi rs (handleSwexn k esi) fun _ _ => True := by
  refine .bind (guards_arg (by omega)) fun stack => .bind (guards_arg (by omega)) fun handler =>
    .bind (guards_arg (by omega)) fun _ => .bind (guards_arg (by omega)) fun ureg => ?_
  refine .bind (Q := fun _ => Known rs) ?_ fun ok => ?_
  · split
    swap
    · exact .ret fun _ h => h
    refine .bind (guards_act fun _ _ => .inr ⟨trivial, trivial⟩) fun ok => ?_
    split
    · exact guards_act fun _ _ => .inr ⟨trivial, trivial⟩
    · exact .ret fun _ h => h
  split
  swap
  · exact guards_fail
  split
  · exact .ret fun _ _ => trivial
  refine .bind (guards_isReadable ureg uregSize) fun ok => ?_
  cases ok with
  | false => exact guards_fail
  | true =>
      refine .bind (guards_word fun i hi s h => .inr ?_) fun eflags => ?_
      · have covered := h.covers List.mem_cons_self (by simp only [uregSize]; omega : 4 * 17 + i < _)
        rw [← Nat.add_assoc] at covered
        exact ⟨covered.1.read, covered.2⟩
      · change Guards call esi (⟨ureg, uregSize, false⟩ :: rs) (if k.checkEflags eflags then _ else _)
          fun _ _ => True
        split
        · exact .bind (guards_loadUreg List.mem_cons_self _ (by decide)) fun _ =>
            .ret fun _ _ => trivial
        · exact guards_fail

theorem guards_readfile (k : Kern) :
    Guards .readfile esi rs (handleReadfile k esi) fun _ _ => True := by
  refine .bind (guards_arg (by omega)) fun filename => .bind (guards_arg (by omega)) fun buf =>
    .bind (guards_arg (by omega)) fun count => .bind (guards_arg (by omega)) fun offset => ?_
  split
  · exact guards_fail
  rename_i signed
  refine .bind (guards_isWritable buf count) fun ok => ?_
  cases ok with
  | false => exact guards_fail
  | true =>
      refine .bind (guards_getbytes (.inr rfl) k _ _ _) fun file => ?_
      cases file with
      | none => exact guards_fail.conseq (fun _ h => h.1) fun _ _ h => h
      | some bytes =>
          refine .given fun fits => ?_
          have fits := fits bytes rfl
          change Guards .readfile esi (⟨buf, count, true⟩ :: rs) (if buf = 0 then _ else _)
            fun _ _ => True
          split
          · exact guards_fail
          · refine .bind (guards_storeBytes List.mem_cons_self rfl _ 0 ?_) fun _ =>
              .ret fun _ _ => trivial
            simp only [toInt] at signed fits
            dsimp only
            split at fits <;> omega

theorem guards_setCursorPos (k : Kern) :
    Guards call esi rs (handleSetCursorPos k esi) fun _ _ => True := by
  refine .bind (guards_arg (by omega)) fun row => .bind (guards_arg (by omega)) fun col => ?_
  split
  · exact .ret fun _ _ => trivial
  · exact guards_fail

theorem guards_getCursorPos (k : Kern) :
    Guards call esi rs (handleGetCursorPos k esi) fun _ _ => True := by
  refine .bind (guards_arg (by omega)) fun row => .bind (guards_arg (by omega)) fun col => ?_
  refine .bind (guards_isWritable row 4) fun ok => ?_
  cases ok with
  | false => exact guards_fail
  | true =>
      refine .bind (guards_isWritable col 4) fun ok => ?_
      cases ok with
      | false => exact guards_fail
      | true =>
          refine .bind (guards_storeBytes (List.mem_cons_of_mem _ List.mem_cons_self) rfl _ 0
            (Nat.le_refl 4)) fun _ => ?_
          exact .bind (guards_storeBytes List.mem_cons_self rfl _ 0 (Nat.le_refl 4)) fun _ =>
            .ret fun _ _ => trivial

end

/-- Every other access of a handler is to a byte that one of its checks has accepted, a
store to one that `is_writable` has, and no such load is below the user space. -/
theorem handle_guards (call : Call) (k : Kern) (esi : Nat) (s : User) :
    (call.handle k esi).Meets exec User.alive (Ok call esi) { s with accepted := [] } := by
  have start : Known [] { s with accepted := [] } := ⟨by simp, by simp⟩
  cases call with
  | exec => exact (guards_exec k _ start).1
  | print => exact (guards_print _ start).1
  | readline => exact (guards_readline k _ start).1
  | newPages => exact (guards_newPages k _ start).1
  | swexn => exact (guards_swexn k _ start).1
  | readfile => exact (guards_readfile k _ start).1
  | setCursorPos => exact (guards_setCursorPos k _ start).1
  | getCursorPos => exact (guards_getCursorPos k _ start).1

end OsKernel.Packet
