/-
The machine one call runs on: around the memory model, the register `%cr3`, the
translation cache, the fields of control blocks that a call sets for a while, and
the kernel heap.

A call is a program over the actions of the memory model (`mem`), updates of the
control part (`ctl`) and looks at the state (`look`). The programs of the memory
model are part of it as they stand (`lift`); what they do to a page of the user goes
through `%cr3` here, whichever directory they name, and every such access caches
the translation it used. The cache is emptied by `set_cr3` and, for one page, by a
fault. `lift_eval`: a program that names the directory in `%cr3` does what it does
in the memory model, and leaves the control part alone but for the cache.

Arguments the kernel reads from user memory are given as it reads them; the entries
these reads cache are those of a load right before the call.
-/

import OsKernel.Lib.Seq
import OsKernel.Machine.Privilege
import OsKernel.Memory.Loader
import Mathlib.Data.List.ModifyLast

namespace OsKernel.Memory.Kernel

/-- Thread `t` is alive. -/
def alive (t : Nat) (s : Kernel) : Bool := (s.thread t).isSome

/-- A program of the memory model that thread `t` runs to its end. -/
def eval {α : Type} (s : Kernel) (t : Nat) (p : Program α) : Kernel × Option α :=
  Prog.eval (exec t) (alive t) p s

end OsKernel.Memory.Kernel

namespace OsKernel.Syscall

open OsKernel.Vm OsKernel.Memory Prog

/-- A cached translation: the frame, and the user-mode accesses it grants. -/
structure Entry where
  frame : Nat
  read : Bool
  write : Bool
deriving DecidableEq, Repr

def Entry.grants (e : Entry) (write : Bool) : Bool := if write then e.write else e.read

/-- What the processor finds for a page in the tables of a directory. -/
def walk (pd : PageDir) (page : Nat) : Option Entry :=
  match pd (page / pteCount) with
  | .absent _ => none
  | .present rw us _ pt =>
      let pte := pt (page % pteCount)
      if pte.p then some {
        frame := pte.pageAddr * pageSize
        read := us && pte.us
        write := us && pte.us && rw = .readWrite && pte.rw = .readWrite }
      else none

/-- A node of a list, at its address on the kernel heap. -/
structure Node (α : Type) where
  addr : Nat
  data : α
deriving DecidableEq

/-- The fields `fork_ctrl_blk` sets in the PCB of a child; a TCB is its `tid`. -/
structure ChildPcb where
  pageDirectory : Nat
  pageAllocationList : List (Node (Nat × Int)) := []
  tcbList : List (Node Nat) := []
deriving DecidableEq

/-- `ureg_t` -/
structure Ureg extends Privilege.Frame where
  cause : Nat := 0
  cr2 : Nat := 0
  ds : Nat := 0
  es : Nat := 0
  fs : Nat := 0
  gs : Nat := 0
  edi : Nat := 0
  esi : Nat := 0
  ebp : Nat := 0
  zero : Nat := 0
  ebx : Nat := 0
  edx : Nat := 0
  ecx : Nat := 0
  eax : Nat := 0
  errorCode : Nat := 0
  eip : Nat := 0
  esp : Nat := 0

/-- `READY_STATE`, the index of a list of `thread_lists`. -/
def readyState : Nat := 1

structure Ctl where
  /-- The thread in `thread_lists[RUNNING_STATE]`. -/
  running : Nat
  /-- The directory in `%cr3`. -/
  cr3 : Nat
  tlb : Nat → Option Entry
  /-- `page_directory` of the PCB of the running process. -/
  pageDirectory : Nat
  /-- `*ureg_ptr` of the running thread. -/
  ureg : Ureg
  /-- `child_pcb_list` of a process. -/
  childPcbList : Nat → List (Node ChildPcb)
  threadLists : Nat → List (Node Nat)
  /-- `thread_count`; the memory model numbers processes on its own. -/
  threadCount : Nat
  /-- The live blocks of the kernel heap other than directories, page tables and
  the nodes of the pool. -/
  heap : List Nat
  nextBlock : Nat

structure Machine extends Ctl where
  kernel : Kernel

namespace Machine

def setKernel (m : Machine) (kernel : Kernel) : Machine := { m with kernel := kernel }

def setCtl (m : Machine) (ctl : Ctl) : Machine := { toCtl := ctl, kernel := m.kernel }

/-- `set_cr3`, which empties the cache. -/
def setCr3 (m : Machine) (d : Nat) : Machine := { m with cr3 := d, tlb := fun _ => none }

def setPageDirectory (m : Machine) (d : Nat) : Machine := { m with pageDirectory := d }

/-- What `%cr3` says about a page. -/
def walk (m : Machine) (page : Nat) : Option Entry :=
  (m.kernel.mem.vm.dirs m.cr3).bind (Syscall.walk · page)

/-- An access to the page of an address that completed, or faulted. -/
def touch (m : Machine) (v : Nat) (completed : Bool) : Machine :=
  { m with tlb := Function.update m.tlb (pageOf v) (if completed then m.walk (pageOf v) else none) }

/-- The copy of a page in `fork_ctrl_blk`: into the buffer through the directory of
the parent, out of it through the one of the child, and back again. -/
def copyPage (m : Machine) (parent child v : Nat) : Machine :=
  match m.kernel.mem.frameAt m.cr3 v with
  | none => m
  | some f =>
      let buf := fun i => m.kernel.mem.phys (f + i)
      let m := ((m.touch v true).setPageDirectory child).setCr3 child
      let m := match m.kernel.mem.frameAt m.cr3 v with
        | none => m
        | some f' =>
            (m.setKernel { m.kernel with mem := m.kernel.mem.fill f' buf }).touch v true
      (m.setPageDirectory parent).setCr3 parent

/-- The running thread is alive. -/
def live (m : Machine) : Bool := Kernel.alive m.running m.kernel

end Machine

/-- A user-mode access completed. -/
def completes : Completion → Bool
  | .done => true
  | .fault _ => false

inductive KAct where
  | mem (a : Act)
  | ctl (f : Ctl → Ctl)
  | look

abbrev KAct.Result : KAct → Type
  | .mem a => a.Result
  | .ctl _ => Unit
  | .look => Machine

abbrev KProgram := Prog KAct KAct.Result

namespace Machine

/-- An action of the memory model that is an access to the page of `v`. -/
def access {α : Type} (m : Machine) (v : Nat) (out : Kernel × α) (completed : Bool) : Machine × α :=
  ((m.setKernel out.1).touch v completed, out.2)

def exec : (a : KAct) → Machine → Machine × a.Result
  | .mem (.clearPage _ v), m =>
      m.access v (Kernel.exec m.running (.clearPage m.cr3 v) m.kernel) true
  | .mem (.copyPage parent child v), m => (m.copyPage parent child v, ())
  | .mem (.place _ v b), m =>
      let out := Kernel.exec m.running (.place m.cr3 v b) m.kernel
      m.access v out out.2
  | .mem (.copyOut _ v b), m =>
      let out := Kernel.exec m.running (.copyOut m.cr3 v b) m.kernel
      m.access v out out.2
  | .mem (.load v), m =>
      let out := Kernel.exec m.running (.load v) m.kernel
      m.access v out (completes out.2)
  | .mem (.store v b), m =>
      let out := Kernel.exec m.running (.store v b) m.kernel
      m.access v out (completes out.2)
  | .mem a, m =>
      let out := Kernel.exec m.running a m.kernel
      (m.setKernel out.1, out.2)
  | .ctl f, m => (m.setCtl (f m.toCtl), ())
  | .look, m => (m, m)

/-- A call, run to its end. -/
def eval {α : Type} (m : Machine) (p : KProgram α) : Machine × Option α := Prog.eval exec live p m

end Machine

/-! ### Writing programs -/

def mem (a : Act) : KProgram a.Result := Prog.perform (KAct.mem a)

def ctl (f : Ctl → Ctl) : KProgram Unit := Prog.perform (KAct.ctl f)

def look : KProgram Machine := Prog.perform KAct.look

/-- A program of the memory model. -/
def lift {α : Type} (p : Program α) : KProgram α := p.hoist mem

def setCr3 (d : Nat) : KProgram Unit := ctl fun c => { c with cr3 := d, tlb := fun _ => none }

def setPageDirectory (d : Nat) : KProgram Unit := ctl fun c => { c with pageDirectory := d }

/-! ### The memory model in the machine -/

/-- An access of the kernel to user memory names the directory in `%cr3`, and a copy
that it comes back from also the one in the PCB. -/
def Via (c : Ctl) : Act → Prop
  | .clearPage e _ => e = c.cr3
  | .copyPage e _ _ => e = c.cr3 ∧ e = c.pageDirectory
  | .place e _ _ => e = c.cr3
  | .copyOut e _ _ => e = c.cr3
  | _ => True

/-- The control part is as it was, but for the cache. -/
def SameCtl (m m' : Machine) : Prop := m'.toCtl = { m.toCtl with tlb := m'.tlb }

theorem SameCtl.refl (m : Machine) : SameCtl m m := rfl

theorem SameCtl.trans {m m' m'' : Machine} (h : SameCtl m m') (h' : SameCtl m' m'') :
    SameCtl m m'' := by
  unfold SameCtl at *
  rw [h', h]

/-- The copy of a page between the directory in `%cr3` and another. -/
theorem copyPage_spec {m : Machine} (child v : Nat) (same : m.pageDirectory = m.cr3) :
    SameCtl m (m.copyPage m.cr3 child v) ∧ (m.copyPage m.cr3 child v).kernel =
      { m.kernel with mem := m.kernel.mem.copyPage m.cr3 child v } := by
  unfold SameCtl Machine.copyPage Mem.copyPage
  cases m.kernel.mem.frameAt m.cr3 v with
  | none => exact ⟨rfl, rfl⟩
  | some f =>
      have switched : ∀ d, (((m.touch v true).setPageDirectory d).setCr3 d).kernel.mem.frameAt
          (((m.touch v true).setPageDirectory d).setCr3 d).cr3 v = m.kernel.mem.frameAt d v :=
        fun _ => rfl
      simp only [switched]
      cases m.kernel.mem.frameAt child v with
      | none =>
          refine ⟨?_, rfl⟩
          simp [Machine.setCr3, Machine.setPageDirectory, Machine.touch, same]
      | some f' =>
          refine ⟨?_, rfl⟩
          simp [Machine.setCr3, Machine.setPageDirectory, Machine.touch, Machine.setKernel, same]

/-- An action through the directory in `%cr3` does what it does in the memory
model. -/
theorem exec_mem {m : Machine} {a : Act} (via : Via m.toCtl a) :
    SameCtl m (Machine.exec (.mem a) m).1 ∧
      (Machine.exec (.mem a) m).1.kernel = (Kernel.exec m.running a m.kernel).1 ∧
      (Machine.exec (.mem a) m).2 = (Kernel.exec m.running a m.kernel).2 := by
  cases a with
  | clearPage e v =>
      cases via
      exact ⟨rfl, rfl, rfl⟩
  | place e v b =>
      cases via
      exact ⟨rfl, rfl, rfl⟩
  | copyOut e v b =>
      cases via
      exact ⟨rfl, rfl, rfl⟩
  | copyPage e child v =>
      obtain ⟨rfl, same⟩ := via
      obtain ⟨ctl, kernel⟩ := copyPage_spec child v same.symm
      exact ⟨ctl, kernel, rfl⟩
  | _ => exact ⟨rfl, rfl, rfl⟩

theorem Via.of_same {m m' : Machine} {a : Act} (via : Via m.toCtl a) (ctl : SameCtl m m') :
    Via m'.toCtl a := by
  rw [ctl]
  cases a <;> exact via

theorem simulates_mem {m₀ : Machine} {a : Act} (via : Via m₀.toCtl a) :
    Simulates (Kernel.exec m₀.running) (Kernel.alive m₀.running) Machine.exec Machine.live mem
      Machine.kernel (SameCtl m₀) a := by
  intro m ctl
  have running : m.running = m₀.running := by rw [ctl]
  obtain ⟨ctl', kernel, result⟩ := exec_mem (via.of_same ctl)
  have running' : (Machine.exec (.mem a) m).1.running = m.running := by rw [ctl']
  refine ⟨(Machine.exec (.mem a) m).1, ?_, ?_, ctl.trans ctl'⟩
  · rw [mem, eval_perform, Machine.live, running', kernel, result, running]
    split <;> rfl
  · rw [kernel, running]

/-- A program of the memory model that works in the directory in `%cr3` does what it
does there, and leaves the control part alone but for the cache. -/
theorem lift_eval {α : Type} {m : Machine} {p : Program α} (via : p.All (Via m.toCtl)) :
    ∃ m', m.eval (lift p) = (m', (m.kernel.eval m.running p).2) ∧
      m'.kernel = (m.kernel.eval m.running p).1 ∧ SameCtl m m' :=
  hoist_eval (via.mono fun _ => simulates_mem) (SameCtl.refl m)

end OsKernel.Syscall
