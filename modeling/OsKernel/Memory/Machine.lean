/-
The processes, the threads and the atomic actions the handlers are made of.

A handler is a program over the actions of `Act`: the functions of the page
directory manager (each runs under `vm_lock`), allocations, the stores the kernel
makes, and the updates of process and thread control blocks. Between two actions
of a thread any other thread may run. The PCB locks are left out, so a run of the
model has every interleaving the kernel has, and more.

`trace` records what the claims about user memory speak of: completed loads and
stores, forks, execs, pages that `new_pages` and `remove_pages` made available.
`flatOf` replays it on one private flat byte memory per process, with no page and
no frame in sight. The repair of a page fault is not recorded.

`owner` and `shared` are bookkeeping for the proofs, read by no action: the thread
that has a directory for itself, and the processes that ever had two threads.
-/

import OsKernel.Lib.Prog
import OsKernel.Memory.Ops

namespace OsKernel.Memory

open OsKernel.Vm

/-- `pcb_t`, as far as memory is concerned. -/
structure Proc where
  dir : Nat
  /-- `page_allocation_list`, from its head: base and length. -/
  allocs : List (Nat × Int) := []
  guest : Bool := false

inductive Event where
  | loaded (p v : Nat) (b : UInt8)
  | stored (p v : Nat) (b : UInt8)
  | forked (p child : Nat)
  /-- The process runs a new image; the bytes are those `exec` placed, in order. -/
  | execed (p : Nat) (placed : List (Nat × UInt8))
  /-- A page requested or given back is available now. -/
  | available (p page : Nat)
deriving DecidableEq

structure Kernel where
  mem : Mem
  threadCount : Nat
  /-- The process of a thread that is alive. -/
  thread : Nat → Option Nat
  /-- The processes that are not reaped yet. -/
  procs : Nat → Option Proc
  trace : List Event
  owner : Nat → Option Nat
  shared : Nat → Bool

/-! ### The flat memories -/

/-- A private flat byte memory for every process. -/
abbrev Flat := Nat → Nat → UInt8

/-- Bytes placed one after another in a memory of zeros. -/
def place (placed : List (Nat × UInt8)) : Nat → UInt8 :=
  placed.foldl (fun f w => Function.update f w.1 w.2) fun _ => 0

def Flat.step (flat : Flat) : Event → Flat
  | .loaded _ _ _ => flat
  | .stored p v b => Function.update flat p (Function.update (flat p) v b)
  | .forked p child => Function.update flat child (flat p)
  | .execed p placed => Function.update flat p (place placed)
  | .available p page => Function.update flat p fun v => if pageOf v = page then 0 else flat p v

def flatOf (trace : List Event) : Flat := trace.foldl Flat.step fun _ _ => 0

/-- Every completed load returned the byte of the flat memory of its process. -/
def LoadsAgree (trace : List Event) : Prop :=
  ∀ before p v b after, trace = before ++ .loaded p v b :: after → b = flatOf before p v

theorem flatOf_concat (trace : List Event) (e : Event) :
    flatOf (trace ++ [e]) = (flatOf trace).step e := by
  simp [flatOf]

/-! ### Actions -/

/-- How a user access ends: it completes, or it faults with the P bit of the error
code. -/
inductive Completion where
  | done
  | fault (present : Bool)

inductive Act where
  | current
  | threadAliveCount
  | malloc (size : Nat)
  | constructPageDir
  | destructPageDir (d : Nat)
  | mapNewFrame (d v : Nat)
  | mapZeroFrame (d v : Nat)
  /-- `released` tells the trace that the caller gives the page back. -/
  | unmapFrame (d v : Nat) (released : Bool)
  | setAccess (d v access : Nat)
  | setAvailability (d v availability : Nat)
  | checkUserPage (d v : Nat)
  | getAccess (d v : Nat)
  | getAvailability (d v : Nat)
  | load (v : Nat)
  | store (v : Nat) (b : UInt8)
  | clearPage (d v : Nat)
  | copyPage (src dst v : Nat)
  /-- A store of the loader. -/
  | place (d v : Nat) (b : UInt8)
  /-- A store into a buffer of the user. -/
  | copyOut (d v : Nat) (b : UInt8)
  | setAllocations (allocs : List (Nat × Int))
  | newProcess (d : Nat) (allocs : List (Nat × Int))
  | newThread
  | newImage (d : Nat) (guest : Bool) (placed : List (Nat × UInt8))
  | killSiblings
  /-- The thread is gone, and its PCB names directory `d`. -/
  | vanish (d : Nat)
  | detach (p : Nat)

abbrev Act.Result : Act → Type
  | .current => Option Proc
  | .threadAliveCount => Nat
  | .malloc _ | .mapNewFrame .. | .mapZeroFrame .. | .unmapFrame .. | .setAccess ..
  | .setAvailability .. | .place .. | .copyOut .. => Bool
  | .constructPageDir | .detach _ => Option Nat
  | .checkUserPage .. => Option MappingInfo
  | .getAccess .. => Option Access
  | .getAvailability .. => Option Availability
  | .load _ | .store .. => Completion
  | .destructPageDir _ | .clearPage .. | .copyPage .. | .setAllocations _ | .newProcess ..
  | .newThread | .newImage .. | .killSiblings | .vanish _ => Unit

abbrev Program := Prog Act Act.Result

/-- The program of one action. -/
abbrev act (a : Act) : Program a.Result := Prog.perform a

namespace Kernel

/-- The PCB of a thread. -/
def proc (s : Kernel) (t : Nat) : Option Proc := (s.thread t).bind s.procs

/-- `get_thread_alive_count`. -/
def threadAliveCount (s : Kernel) (p : Nat) : Nat :=
  ((List.range s.threadCount).filter fun t => s.thread t = some p).length

def setVm (s : Kernel) (out : Bool × VmState) : Kernel × Bool :=
  ({ s with mem := s.mem.withVm out.2 }, out.1)

/-- Record that a page of the thread's own process became available. -/
def noteAvailable (s : Kernel) (t d v : Nat) : Kernel :=
  match s.thread t, s.proc t with
  | some p, some pr => if pr.dir = d then { s with trace := s.trace ++ [.available p (pageOf v)] } else s
  | _, _ => s

/-- A user-mode access at an address of the machine's 32 bits, with what it does
at the physical address the processor finds. -/
def userAccess (s : Kernel) (t v : Nat) (write : Bool)
    (go : Nat → Nat → Kernel) : Kernel × Completion :=
  match s.thread t, (s.proc t).bind fun pr => s.mem.vm.dirs pr.dir with
  | some p, some pd => match translate pd v write with
      | some a => (go p a, .done)
      | none => (s, .fault (faultPresent pd v))
  | _, _ => (s, .fault false)

/-- A store in kernel mode; false is a page fault. -/
def kstore (s : Kernel) (d v : Nat) (b : UInt8) : Kernel × Bool :=
  match s.mem.kstore d v b with
  | some mem => ({ s with mem := mem }, true)
  | none => (s, false)

def exec (t : Nat) : (a : Act) → Kernel → Kernel × a.Result
  | .current, s => (s, s.proc t)
  | .threadAliveCount, s => (s, match s.thread t with
      | some p => s.threadAliveCount p
      | none => 0)
  | .malloc size, s =>
      -- the kernel heap lies below USER_MEM_START
      if userMemStart ≤ size then (s, false) else s.setVm s.mem.vm.malloc
  | .constructPageDir, s => match Vm.constructPageDir s.mem.vm with
      | (some d, vm) =>
          ({ s with mem := s.mem.withVm vm, owner := Function.update s.owner d (some t) }, some d)
      | (none, vm) => ({ s with mem := s.mem.withVm vm }, none)
  | .destructPageDir d, s =>
      ({ s with mem := s.mem.withVm (Vm.destructPageDir s.mem.vm d),
                owner := Function.update s.owner d none }, ())
  | .mapNewFrame d v, s => s.setVm (Vm.mapNewFrame s.mem.vm d v)
  | .mapZeroFrame d v, s => s.setVm (Vm.mapZeroFrame s.mem.vm d v)
  | .unmapFrame d v released, s => match s.setVm (Vm.unmapFrame s.mem.vm d v) with
      | (s, true) => (if released then s.noteAvailable t d v else s, true)
      | (s, false) => (s, false)
  | .setAccess d v access, s => s.setVm (Vm.setAccess s.mem.vm d v access)
  | .setAvailability d v availability, s =>
      match s.setVm (Vm.setAvailability s.mem.vm d v availability) with
      | (s, true) => (if availability = 1 then s.noteAvailable t d v else s, true)
      | (s, false) => (s, false)
  | .checkUserPage d v, s => (s, Vm.checkUserPage s.mem.vm d v)
  | .getAccess d v, s => (s, Vm.getAccess s.mem.vm d v)
  | .getAvailability d v, s => (s, Vm.getAvailability s.mem.vm d v)
  | .load v, s => s.userAccess t (v % virtualAddrEnd) false fun p a =>
      { s with trace := s.trace ++ [.loaded p (v % virtualAddrEnd) (s.mem.phys a)] }
  | .store v b, s => s.userAccess t (v % virtualAddrEnd) true fun p a =>
      { s with mem := s.mem.put a b, trace := s.trace ++ [.stored p (v % virtualAddrEnd) b] }
  | .clearPage d v, s => ({ s with mem := s.mem.clearPage d v }, ())
  | .copyPage src dst v, s => ({ s with mem := s.mem.copyPage src dst v }, ())
  | .place d v b, s => s.kstore d (v % virtualAddrEnd) b
  | .copyOut d v b, s => match s.kstore d (v % virtualAddrEnd) b, s.thread t with
      | (s, true), some p =>
          ({ s with trace := s.trace ++ [.stored p (v % virtualAddrEnd) b] }, true)
      | out, _ => out
  | .setAllocations allocs, s => match s.thread t, s.proc t with
      | some p, some pr =>
          ({ s with procs := Function.update s.procs p (some { pr with allocs := allocs }) }, ())
      | _, _ => (s, ())
  | .newProcess d allocs, s => match s.thread t with
      | some p =>
          let child := s.threadCount
          ({ s with threadCount := s.threadCount + 1,
                    thread := Function.update s.thread child (some child),
                    procs := Function.update s.procs child (some { dir := d, allocs := allocs }),
                    trace := s.trace ++ [.forked p child],
                    owner := Function.update s.owner d (if s.shared p then none else some child),
                    shared := Function.update s.shared child (s.shared p) }, ())
      | none => (s, ())
  | .newThread, s => match s.thread t, s.proc t with
      | some p, some pr =>
          ({ s with threadCount := s.threadCount + 1,
                    thread := Function.update s.thread s.threadCount (some p),
                    owner := Function.update s.owner pr.dir none,
                    shared := Function.update s.shared p true }, ())
      | _, _ => (s, ())
  | .newImage d guest placed, s => match s.thread t, s.proc t with
      | some p, some pr =>
          ({ s with procs := Function.update s.procs p (some { dir := d, guest := guest }),
                    trace := s.trace ++ [.execed p placed],
                    owner := Function.update s.owner pr.dir (some t) }, ())
      | _, _ => (s, ())
  | .killSiblings, s =>
      ({ s with thread := fun t' => if t' ≠ t ∧ s.thread t' = s.thread t then none else s.thread t' },
        ())
  | .vanish d, s => match s.thread t, s.proc t with
      | some p, some pr =>
          ({ s with thread := Function.update s.thread t none,
                    procs := Function.update s.procs p (some { pr with dir := d }) }, ())
      | _, _ => (s, ())
  | .detach p, s => match s.procs p with
      | some pr =>
          if s.threadAliveCount p = 0 then
            ({ s with procs := Function.update s.procs p none,
                      owner := Function.update s.owner pr.dir (some t) }, some pr.dir)
          else (s, none)
      | none => (s, none)

end Kernel

end OsKernel.Memory
