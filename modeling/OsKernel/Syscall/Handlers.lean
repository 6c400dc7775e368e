/-
The calls, with what they return and what they do to the control part:
`new_pages`, `remove_pages`, page faults, `fork` with `fork_ctrl_blk`, and `exec`
with `load_executable`.

The loops over pages are those of the memory model. Around them stand the steps it
leaves out: `%cr3` and `page_directory`, the lists and blocks of `fork_ctrl_blk` with
its unwind sequences, the registers of a new program.
-/

import OsKernel.Memory.Flat
import OsKernel.Syscall.Machine

namespace OsKernel.Syscall

open OsKernel.Vm OsKernel.Memory Prog

/-! ### Pages on request -/

/-- `handle_new_pages`; the result is whether `%eax` is 0. -/
def newPages (base : Nat) (len : Int) (physFrames : Nat) : KProgram Bool := do
  let m ← look
  match ← mem .current with
  | none => pure false
  | some pr =>
      let count := len.tdiv pageSize
      if base / pageSize * pageSize = base ∧ 0 < count ∧
          count < physFrames - userPageStart / pageSize ∧ count * pageSize = len then
        if ← lift (newPagesLoop m.cr3 base 0 count.toNat) then
          if ← mem (.malloc recordSize) then
            mem (.setAllocations (insertAllocation base len pr.allocs))
            pure true
          else
            lift (releasePages m.cr3 base (List.range count.toNat))
            pure false
        else pure false
      else pure false

/-- How `handle_remove_pages` ends: no record, a failure in the middle of the
unmapping loop, or success. Only the last sets `%eax` to 0. -/
inductive Removal where
  | notFound
  | stuck
  | removed
deriving DecidableEq, Repr

/-- The addresses of the unmapping loop. -/
def recordPages (base : Nat) (len : Int) : List Nat :=
  (List.range ((len.toNat + pageSize - 1) / pageSize)).map fun i => base + i * pageSize

/-- `handle_remove_pages` -/
def removePages (base : Nat) : KProgram Removal := do
  let m ← look
  match ← mem .current with
  | none => pure .notFound
  | some pr => match findAllocation base pr.allocs with
      | none => pure .notFound
      | some (len, rest) => do
          mem (.setAllocations rest)
          if ← lift (forAll (removePage m.cr3) (recordPages base len)) then
            setCr3 m.cr3
            pure .removed
          else pure .stuck

/-! ### Page faults -/

/-- A page fault at an address with the bits of its error code; the fault takes the
entry of its page out of the cache. -/
def pageFault (present write : Bool) (v : Nat) : KProgram Unit := do
  ctl fun c => { c with tlb := Function.update c.tlb (pageOf v) none }
  let m ← look
  lift (handlePageFault m.cr3 present write v)

/-- A page fault in user mode. A fault of a guest is not handled here. -/
def userFault (present write : Bool) (v : Nat) : KProgram Unit := do
  match ← mem .current with
  | none => pure ()
  | some pr => if pr.guest then pure () else pageFault present write v

def load (v : Nat) : KProgram Unit := do
  match (← mem (.load v) : Completion) with
  | .done => pure ()
  | .fault present => userFault present false v

def store (v : Nat) (b : UInt8) : KProgram Unit := do
  match (← mem (.store v b) : Completion) with
  | .done => pure ()
  | .fault present => userFault present true v

/-! ### Fork -/

/-- `malloc`: the address of the block. -/
def malloc (size : Nat) : KProgram (Option Nat) := do
  if ← mem (.malloc size) then
    let m ← look
    ctl fun c => { c with heap := c.nextBlock :: c.heap, nextBlock := c.nextBlock + 1 }
    pure (some m.nextBlock)
  else pure none

def free (block : Nat) : KProgram Unit := ctl fun c => { c with heap := c.heap.erase block }

def Ctl.setChildren (c : Ctl) (p : Nat) (children : List (Node ChildPcb)) : Ctl :=
  { c with childPcbList := Function.update c.childPcbList p children }

/-- A change of `*child_pcb_ptr`, which points into the last node of the list. -/
def Ctl.setChild (c : Ctl) (p : Nat) (f : ChildPcb → ChildPcb) : Ctl :=
  c.setChildren p ((c.childPcbList p).modifyLast fun node => { node with data := f node.data })

/-- `PUSH_BACK` on `child_pcb_list`. -/
def pushChild (p d : Nat) : KProgram Bool := do
  match ← malloc recordSize with
  | none => pure false
  | some block =>
      ctl fun c => c.setChildren p (c.childPcbList p ++ [⟨block, { pageDirectory := d }⟩])
      pure true

/-- `POP_BACK` on `child_pcb_list`. -/
def popChild (p : Nat) : KProgram Unit := do
  let m ← look
  match (m.childPcbList p).getLast? with
  | none => pure ()
  | some node =>
      ctl fun c => c.setChildren p (c.childPcbList p).dropLast
      free node.addr

/-- `PUSH_BACK` on `page_allocation_list` of the child. -/
def pushRecord (p : Nat) (record : Nat × Int) : KProgram Bool := do
  match ← malloc recordSize with
  | none => pure false
  | some block =>
      ctl fun c => c.setChild p fun pcb =>
        { pcb with pageAllocationList := pcb.pageAllocationList ++ [⟨block, record⟩] }
      pure true

/-- `POP_FRONT` of every record in turn. -/
def popRecords (p : Nat) : List (Node (Nat × Int)) → KProgram Unit
  | [] => pure ()
  | node :: nodes => do
      ctl fun c => c.setChild p fun pcb =>
        { pcb with pageAllocationList := pcb.pageAllocationList.tail }
      free node.addr
      popRecords p nodes

/-- The loop that empties `page_allocation_list` of the child. -/
def dropRecords (p : Nat) : KProgram Unit := do
  let m ← look
  match (m.childPcbList p).getLast? with
  | none => pure ()
  | some node => popRecords p node.data.pageAllocationList

/-- `PUSH_FRONT` of a copy of the TCB on `tcb_list` of the child. -/
def pushTcb (p tid : Nat) : KProgram Bool := do
  match ← malloc recordSize with
  | none => pure false
  | some block =>
      ctl fun c => c.setChild p fun pcb => { pcb with tcbList := ⟨block, tid⟩ :: pcb.tcbList }
      pure true

/-- `POP_BACK` on `tcb_list` of the child. -/
def popTcb (p : Nat) : KProgram Unit := do
  let m ← look
  match (m.childPcbList p).getLast?.bind fun node => node.data.tcbList.getLast? with
  | none => pure ()
  | some node =>
      ctl fun c => c.setChild p fun pcb => { pcb with tcbList := pcb.tcbList.dropLast }
      free node.addr

/-- `thread_count++`, and the new `tid` in the TCB at the head of the list. -/
def newTid (p : Nat) : KProgram Nat := do
  let m ← look
  ctl fun c => { c with threadCount := c.threadCount + 1 }.setChild p fun pcb =>
    { pcb with tcbList := pcb.tcbList.modifyHead fun node => { node with data := m.threadCount } }
  pure m.threadCount

/-- The new thread at the back of the READY list. -/
def Ctl.pushReady (c : Ctl) (node : Node Nat) : Ctl :=
  { c with threadLists :=
      Function.update c.threadLists readyState (c.threadLists readyState ++ [node]) }

/-- The end of every unwind sequence. -/
def giveUp (child : Nat) : KProgram (Option Nat) := do
  mem (.destructPageDir child)
  pure none

/-- The copy of the PCB of process `p`: the buffer, the node, the pages and the
records. -/
def copyPcb (p parent child : Nat) (allocs : List (Nat × Int)) : KProgram Bool := do
  match ← malloc pageSize with
  | none => pure false
  | some buf =>
      if ← pushChild p child then
        if ← lift (forkPages parent child kernelPageCount) then
          free buf
          if ← forAll (pushRecord p) allocs then pure true
          else
            dropRecords p
            popChild p
            pure false
        else
          popChild p
          free buf
          pure false
      else
        free buf
        pure false

/-- The copy of the TCB: the node, the `tid`, and the node of the READY list. -/
def copyTcb (p child : Nat) (allocs : List (Nat × Int)) : KProgram (Option Nat) := do
  let m ← look
  if ← pushTcb p m.running then
    let tid ← newTid p
    match ← malloc recordSize with
    | none =>
        popTcb p
        dropRecords p
        popChild p
        giveUp child
    | some node =>
        ctl fun c => c.pushReady ⟨node, tid⟩
        mem (.newProcess child allocs)
        pure (some tid)
  else
    dropRecords p
    popChild p
    giveUp child

/-- `fork_ctrl_blk`: the `tid` of the child, or none for a negative value. -/
def forkCtrlBlk : KProgram (Option Nat) := do
  let m ← look
  match m.kernel.thread m.running, ← mem .current with
  | some p, some pr => match ← mem .constructPageDir with
      | none => pure none
      | some child =>
          if ← copyPcb p m.cr3 child pr.allocs then copyTcb p child pr.allocs
          else giveUp child
  | _, _ => pure none

/-- `handle_fork` -/
def fork : KProgram (Option Nat) := do
  if (← mem .threadAliveCount) = 1 then forkCtrlBlk else pure none

/-! ### Exec -/

/-- What `elf_load_helper` finds in an executable. -/
structure Elf extends Image where
  entry : Nat

/-- `GUEST_LAUNCH_EAX` -/
def guestLaunchEax : Nat := 0x15410DE0

/-- The stack pointer after `push_val` of a value of some length. -/
def pushedEsp (esp len : Nat) : Nat :=
  if len = 0 then esp else (esp + virtualAddrEnd - len) % virtualAddrEnd / 4 * 4

/-- The stack pointer after the arguments of `_main` are pushed. -/
def startEsp (stackHigh : Nat) (args : List (List UInt8)) : Nat :=
  let lengths := args.map (fun arg => arg.length + 1) ++
    (if args = [] then [] else [args.length * 4]) ++ [4, 4, 4, 4, 4]
  lengths.foldl pushedEsp stackHigh

/-- The registers a new program starts with. -/
def Elf.ureg (elf : Elf) (args : List (List UInt8)) : Ureg :=
  if elf.guest then {
    toFrame := Privilege.entryFrame true
    ds := Privilege.segselGuestKernelDs
    es := Privilege.segselGuestKernelDs
    fs := Privilege.segselGuestKernelDs
    gs := Privilege.segselGuestKernelDs
    ebx := guestMemSize / pageSize - 1
    ecx := guestMemSize - 1
    eax := guestLaunchEax
    eip := elf.entry }
  else {
    toFrame := Privilege.entryFrame false
    ds := Privilege.segselUserDs
    es := Privilege.segselUserDs
    fs := Privilege.segselUserDs
    gs := Privilege.segselUserDs
    eip := elf.entry
    esp := startEsp 0 args }

/-- The sizes of the copies of the name and of the arguments. -/
def copySizes (name : List UInt8) (args : List (List UInt8)) : List Nat :=
  [name.length + 1] ++ (if args = [] then [] else [args.length * 4]) ++ args.map (·.length + 1)

/-- `load_executable`; the result is whether it returns 0. -/
def loadExecutable (elf : Option Elf) (name : List UInt8) (args : List (List UInt8)) :
    KProgram Bool := do
  match elf with
  | none => pure false
  | some elf => match ← mem .constructPageDir with
      | none => pure false
      | some d =>
          if ← lift (mallocs (copySizes name args)) then
            let m ← look
            setPageDirectory d
            setCr3 d
            match ← lift (loadImage d elf.toImage args) with
            | none =>
                setPageDirectory m.cr3
                setCr3 m.cr3
                mem (.destructPageDir d)
                pure false
            | some placed =>
                ctl fun c => { c with ureg := elf.ureg args }
                mem (.newImage d elf.guest placed)
                mem (.destructPageDir m.cr3)
                pure true
          else
            mem (.destructPageDir d)
            pure false

/-- `handle_exec` -/
def exec (elf : Option Elf) (name : List UInt8) (args : List (List UInt8)) : KProgram Bool := do
  if (← mem .threadAliveCount) = 1 then loadExecutable elf name args else pure false

/-! ### Calls -/

inductive Call where
  | load (v : Nat)
  | store (v : Nat) (b : UInt8)
  | pageFault (present write : Bool) (v : Nat)
  | newPages (base : Nat) (len : Int)
  | removePages (base : Nat)
  | fork
  | exec (elf : Option Elf) (name : List UInt8) (args : List (List UInt8))

/-- The program of a call, without its result. Addresses are those of the machine's
32 bits. -/
def Call.prog (physFrames : Nat) : Call → KProgram Unit
  | .load v => Syscall.load v
  | .store v b => Syscall.store v b
  | .pageFault present write v => Syscall.pageFault present write v
  | .newPages base len => do let _ ← Syscall.newPages (base % virtualAddrEnd) len physFrames
  | .removePages base => do let _ ← Syscall.removePages (base % virtualAddrEnd)
  | .fork => do let _ ← Syscall.fork
  | .exec elf name args => do let _ ← Syscall.exec elf name args

/-- `switch_context`, which loads `%cr3` from the PCB of the thread. -/
def Machine.switchTo (m : Machine) (t : Nat) : Machine :=
  if m.running = t then m
  else match m.kernel.proc t with
    | none => m
    | some pr => ({ m with running := t }.setPageDirectory pr.dir).setCr3 pr.dir

/-- Thread `t` makes a call, if it is alive. -/
def step (physFrames : Nat) (m : Machine) (i : Nat × Call) : Machine :=
  if Kernel.alive i.1 m.kernel then ((m.switchTo i.1).eval (i.2.prog physFrames)).1 else m

/-- The machine with the directory of the first process in `%cr3`, after the start.
The lists, the registers and the heap may hold anything. -/
def boot (physFrames : Nat) (oracle : Nat → Bool) (phys : Nat → UInt8) (ctl : Ctl) :
    Option Machine := do
  let s ← Memory.boot physFrames oracle phys
  let pr ← s.proc 0
  pure ((({ toCtl := { ctl with running := 0 }, kernel := s } : Machine).setPageDirectory pr.dir).setCr3
    pr.dir)

/-- No lists, no blocks and no cached translations. -/
def emptyCtl : Ctl where
  running := 0
  cr3 := 0
  tlb _ := none
  pageDirectory := 0
  ureg := { toFrame := Privilege.entryFrame false }
  childPcbList _ := []
  threadLists _ := []
  threadCount := 1
  heap := []
  nextBlock := 0

/-- What `boot` sets up. -/
theorem boot_spec {physFrames : Nat} {oracle : Nat → Bool} {phys : Nat → UInt8} {ctl : Ctl}
    {m : Machine} (started : boot physFrames oracle phys ctl = some m) :
    Memory.boot physFrames oracle phys = some m.kernel ∧ m.running = 0 ∧
      m.pageDirectory = m.cr3 ∧ m.tlb = (fun _ => none) ∧
      ∃ pr, m.kernel.proc 0 = some pr ∧ m.cr3 = pr.dir := by
  obtain ⟨s, booted, rest⟩ := Option.bind_eq_some_iff.mp started
  obtain ⟨pr, proc, eq⟩ := Option.bind_eq_some_iff.mp rest
  cases eq
  exact ⟨booted, rfl, rfl, rfl, pr, proc, rfl⟩

end OsKernel.Syscall
