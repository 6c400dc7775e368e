/-
The physical frame allocator and the page directory manager (`kern/vm.c`).

`VmState` is the state the module keeps: the pool `alloc_list`, the live page
directories, and the outcomes of the `malloc` and `smemalign` calls still to
come. The pool is the sequence of its nodes. A directory is named by the order
of its construction; a name with no live directory stands for the null pointer,
which is the only other value a caller may pass. An allocation consumes one
outcome, so a statement about every `VmState` covers every way in which allocation
can fail.

Each function returns whether it succeeded (`0`, and not a negative value)
together with the new state.
-/

import OsKernel.Vm.Basic
import Mathlib.Data.List.Basic

namespace OsKernel.Vm

structure VmState where
  allocList : List Nat
  dirs : Nat → Option PageDir
  nextDir : Nat
  oracle : Nat → Bool

/-- `malloc` or `smemalign`: whether the next call returns a block. -/
def VmState.malloc (vm : VmState) : Bool × VmState :=
  (vm.oracle 0, { vm with oracle := fun n => vm.oracle (n + 1) })

/-- The state before `init_page_dir_manager`. -/
def VmState.boot (oracle : Nat → Bool) : VmState := ⟨[], fun _ => none, 0, oracle⟩

/-! ### The frame allocator -/

/-- The loop of `init_allocator`: `PUSH_BACK` of frame after frame. A failed
push empties the pool. -/
def initLoop : List Nat → VmState → Bool × VmState
  | [], vm => (true, vm)
  | i :: is, vm =>
      let frame := (userPageStart + i * pageSize) % virtualAddrEnd
      if frame = zeroFrame then initLoop is vm
      else match vm.malloc with
        | (true, vm) => initLoop is { vm with allocList := vm.allocList ++ [frame] }
        | (false, vm) => (false, { vm with allocList := [] })

/-- `init_allocator`, with the number of frames `machine_phys_frames` reports. -/
def initAllocator (physFrames : Nat) (vm : VmState) : Bool × VmState :=
  if physFrames ≤ userPageStart / pageSize then (false, vm)
  else initLoop (List.range (physFrames - userPageStart / pageSize)) vm

/-- `alloc_frame`: the head of the pool, if any. -/
def allocFrame (vm : VmState) : Option Nat × VmState :=
  match vm.allocList with
  | [] => (none, vm)
  | frame :: rest => (some frame, { vm with allocList := rest })

/-- The `while` loop of `free_frame`: the nodes passed, the node it stops at and
the nodes after it. -/
def findNode (frame : Nat) : List Nat → Nat → List Nat → List Nat × Nat × List Nat
  | passed, node, [] => (passed, node, [])
  | passed, node, next :: rest =>
      if next ≤ frame then findNode frame (passed ++ [node]) next rest
      else (passed, node, next :: rest)

/-- `free_frame`. Nothing is allocated when the frame is already in the pool. -/
def freeFrame (vm : VmState) (pAddr : Nat) : Bool × VmState :=
  let frame := pAddr / pageSize * pageSize
  if userPageStart ≤ frame ∧ frame ≠ zeroFrame then
    match vm.allocList with
    | [] => match vm.malloc with
        | (true, vm) => (true, { vm with allocList := [frame] })
        | (false, vm) => (false, vm)
    | head :: rest =>
        if frame < head then match vm.malloc with
          | (true, vm) => (true, { vm with allocList := frame :: head :: rest })
          | (false, vm) => (false, vm)
        else
          let (passed, node, after) := findNode frame [] head rest
          if node = frame then (true, vm)
          else match vm.malloc with
            | (true, vm) => (true, { vm with allocList := passed ++ node :: frame :: after })
            | (false, vm) => (false, vm)
  else (true, vm)

/-- `init_page_dir_manager`. -/
def initPageDirManager (physFrames : Nat) (vm : VmState) : Bool × VmState := initAllocator physFrames vm

/-! ### Page directories -/

/-- The identity, supervisor-only, global mapping of a kernel page. -/
def kernelPte (page : Nat) : Pte := { p := true, rw := .readWrite, g := true, pageAddr := page }

/-- The `i`-th kernel page table: with no assumption on the size of the kernel
space, its last table may also cover user pages. -/
def kernelTable (i : Nat) : PageTable := fun j =>
  if i * pteCount + j < kernelPageCount then kernelPte (i * pteCount + j) else {}

def kernelPde (i : Nat) : Pde :=
  let userPageInvolved : Bool := decide (kernelPageCount < (i + 1) * pteCount)
  .present .readWrite userPageInvolved (!userPageInvolved) (kernelTable i)

/-- The directory that `construct_page_dir` returns. -/
def freshDir : PageDir := fun i =>
  if i < kernelPageTableCount then kernelPde i else .absent .unavailable

/-- The allocations of `construct_page_dir`: the directory and its kernel page
tables, in order, up to the first that fails. -/
def mallocAll : Nat → VmState → Bool × VmState
  | 0, vm => (true, vm)
  | n + 1, vm => match vm.malloc with
      | (true, vm) => mallocAll n vm
      | (false, vm) => (false, vm)

/-- `construct_page_dir`; `none` is the null pointer. -/
def constructPageDir (vm : VmState) : Option Nat × VmState :=
  match mallocAll (kernelPageTableCount + 1) vm with
  | (true, vm) => (some vm.nextDir,
      { vm with dirs := Function.update vm.dirs vm.nextDir (some freshDir),
                nextDir := vm.nextDir + 1 })
  | (false, vm) => (none, vm)

/-- The inner loop of `destruct_page_dir`. -/
def freeTable (i : Nat) (pt : PageTable) : List Nat → VmState → VmState
  | [], vm => vm
  | j :: js, vm =>
      if (pt j).p ∧ kernelPageCount ≤ i * pteCount + j then
        freeTable i pt js (freeFrame vm ((pt j).pageAddr * pageSize)).2
      else freeTable i pt js vm

/-- The outer loop of `destruct_page_dir`. -/
def freeTables (pd : PageDir) : List Nat → VmState → VmState
  | [], vm => vm
  | i :: is, vm => match pd i with
      | .absent _ => freeTables pd is vm
      | .present _ _ _ pt => freeTables pd is (freeTable i pt (List.range pteCount) vm)

def destructPageDir (vm : VmState) (d : Nat) : VmState :=
  match vm.dirs d with
  | none => vm
  | some pd =>
      let vm := freeTables pd (List.range pdeCount) vm
      { vm with dirs := Function.update vm.dirs d none }

/-- Replace a live directory. -/
def VmState.setDir (vm : VmState) (d : Nat) (pd : PageDir) : VmState :=
  { vm with dirs := Function.update vm.dirs d (some pd) }

/-- The part that `map_new_frame` and `map_zero_frame` share: a user page that is
not mapped, with a page table created if its PDE is not present. -/
def mapPage (vm : VmState) (d vAddr : Nat) (finish : VmState → PageDir → Bool × VmState) :
    Bool × VmState :=
  match vm.dirs d with
  | none => (false, vm)
  | some pd =>
      if pageOf vAddr * pageSize < userPageStart then (false, vm)
      else match findFrame pd vAddr with
        | .nonpresentPde _ => match vm.malloc with
            | (true, vm) => finish vm (createTable pd vAddr)
            | (false, vm) => (false, vm)
        | .nonpresentPte _ => finish vm pd
        | .physicalFrameMapped _ => (false, vm)

/-- The PTE of a page given its own frame. -/
def newFramePte (pAddr : Nat) : Pte :=
  { p := true, pageAddr := pAddr / pageSize, us := true, rw := .readWrite }

/-- The PTE of a page that shares the zero frame. -/
def zeroFramePte : Pte :=
  { p := true, pageAddr := zeroFrame / pageSize, us := true, rw := .readOnly }

/-- `map_new_frame`. A page table created before the pool turns out to be empty
stays. -/
def mapNewFrame (vm : VmState) (d vAddr : Nat) : Bool × VmState :=
  mapPage vm d vAddr fun vm pd =>
    match allocFrame vm with
    | (none, vm) => (false, vm.setDir d pd)
    | (some pAddr, vm) => (true, vm.setDir d (writePte pd vAddr (newFramePte pAddr)))

/-- `map_zero_frame`. -/
def mapZeroFrame (vm : VmState) (d vAddr : Nat) : Bool × VmState :=
  mapPage vm d vAddr fun vm pd => (true, vm.setDir d (writePte pd vAddr zeroFramePte))

/-- `mapping_info_t`. -/
inductive MappingInfo where
  | pdeNotPresent
  | pteNotPresent
  | zeroFrameMapped
  | newFrameMapped
deriving DecidableEq, Repr

/-- `check_user_page`; `none` is the negative result. -/
def checkUserPage (vm : VmState) (d vAddr : Nat) : Option MappingInfo :=
  match vm.dirs d with
  | none => none
  | some pd =>
      if pageOf vAddr * pageSize < userPageStart then none
      else match findFrame pd vAddr with
        | .nonpresentPde _ => some .pdeNotPresent
        | .nonpresentPte _ => some .pteNotPresent
        | .physicalFrameMapped pte =>
            if pte.pageAddr * pageSize = zeroFrame then some .zeroFrameMapped
            else some .newFrameMapped

/-- `unmap_frame`: the page must have been available before it was given a
frame, so it is left available. -/
def unmapFrame (vm : VmState) (d vAddr : Nat) : Bool × VmState :=
  match vm.dirs d with
  | none => (false, vm)
  | some pd =>
      if pageOf vAddr * pageSize < userPageStart then (false, vm)
      else match findFrame pd vAddr with
        | .physicalFrameMapped pte =>
            let vm := vm.setDir d (writePte pd vAddr { available := .available })
            (true, (freeFrame vm (pte.pageAddr * pageSize)).2)
        | _ => (false, vm)

/-- `set_access`. -/
def setAccess (vm : VmState) (d vAddr access : Nat) : Bool × VmState :=
  match vm.dirs d with
  | none => (false, vm)
  | some pd =>
      if pageOf vAddr * pageSize < userPageStart then (false, vm)
      else match findFrame pd vAddr with
        | .physicalFrameMapped pte => match Access.ofNat? access with
            | none => (false, vm)
            | some rw => (true, vm.setDir d (writePte pd vAddr { pte with rw := rw }))
        | _ => (false, vm)

/-- `get_access`; `none` is the negative result. -/
def getAccess (vm : VmState) (d vAddr : Nat) : Option Access :=
  match vm.dirs d with
  | none => none
  | some pd =>
      if pageOf vAddr * pageSize < userPageStart then none
      else match findFrame pd vAddr with
        | .physicalFrameMapped pte => some pte.rw
        | _ => none

/-- `set_availability`. No table is created when the PDE already says so. -/
def setAvailability (vm : VmState) (d vAddr availability : Nat) : Bool × VmState :=
  match vm.dirs d, Availability.ofNat? availability with
  | some pd, some avail =>
      if pageOf vAddr * pageSize < userPageStart then (false, vm)
      else match findFrame pd vAddr with
        | .nonpresentPde old =>
            if old = avail then (true, vm)
            else match vm.malloc with
              | (true, vm) => (true, vm.setDir d
                  (writePte (createTable pd vAddr) vAddr { available := avail }))
              | (false, vm) => (false, vm)
        | .nonpresentPte pte =>
            (true, vm.setDir d (writePte pd vAddr { pte with available := avail }))
        | .physicalFrameMapped _ => (false, vm)
  | _, _ => (false, vm)

/-- `get_availability`; `none` is the negative result. -/
def getAvailability (vm : VmState) (d vAddr : Nat) : Option Availability :=
  match vm.dirs d with
  | none => none
  | some pd =>
      if pageOf vAddr * pageSize < userPageStart then none
      else match findFrame pd vAddr with
        | .nonpresentPde avail => some avail
        | .nonpresentPte pte => some pte.available
        | .physicalFrameMapped _ => none

end OsKernel.Vm
