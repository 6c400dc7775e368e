/-
The zero frame and the stores of the kernel into user buffers.

`is_writable` accepts a page that is mapped to the zero frame, expecting that the
store will fault and be repaired; but `CR0.WP` is clear, and a supervisor store
goes through. So the zero frame stays clean exactly in the runs in which no
nonzero byte is copied out through a page that is mapped to it.
-/

import OsKernel.Memory.Flat

namespace OsKernel.Memory

open OsKernel.Vm Prog Sys

/-- All the calls of processes with any number of threads. -/
inductive AnyCall where
  | basic (call : Call)
  | threadFork
  | taskVanish
  | wait (statusPtr p : Nat) (status : List UInt8)
  /-- `readline` and `readfile`. -/
  | fillBuffer (buf len : Nat) (bytes : List UInt8)
  | getCursorPos (row col : Nat) (rowBytes colBytes : List UInt8)
  /-- A fault that is delivered to a registered handler. -/
  | deliver (bottom : Nat) (frame : List UInt8)

def AnyCall.prog (physFrames : Nat) : AnyCall → Program Unit
  | .basic call => call.prog physFrames
  | .threadFork => Memory.threadFork
  | .taskVanish => Memory.taskVanish
  | .wait statusPtr p status => Memory.wait statusPtr p status
  | .fillBuffer buf len bytes => Memory.fillBuffer buf len bytes
  | .getCursorPos row col rowBytes colBytes => Memory.getCursorPos row col rowBytes colBytes
  | .deliver bottom frame => Memory.deliver bottom frame

/-- One action of the thread that the input names, or the start of its next call. -/
def anyStep (physFrames : Nat) (c : Config Kernel Nat Act Act.Result) (i : Nat × AnyCall) :
    Config Kernel Nat Act Act.Result :=
  (sys true).step (AnyCall.prog physFrames) c i

/-- The zero frame holds zeros only. -/
def ZeroClean (c : Config Kernel Nat Act Act.Result) : Prop :=
  ∀ off < pageSize, c.state.mem.phys (zeroFrame + off) = 0

/-- If what the thread does next is a store into a buffer of the user, through a
page that is mapped to the zero frame, then it stores a zero. -/
def SparesZeroFrame (c : Config Kernel Nat Act Act.Result) (i : Nat × AnyCall) : Prop :=
  (c.state.thread i.1).isSome → ∀ d v b k, c.todo i.1 = .act (.copyOut d v b) k →
    c.state.mem.Zero d (pageOf v) → b = 0

theorem triple_anyCall (physFrames : Nat) (t : Nat) (call : AnyCall) :
    (sys true).Triple t (Ready t) (call.prog physFrames) fun _ => Ready t := by
  cases call with
  | basic call => exact triple_call physFrames t call
  | threadFork => exact triple_threadFork rfl
  | taskVanish => exact triple_taskVanish
  | wait statusPtr p status => exact triple_wait statusPtr p status (.inr rfl)
  | fillBuffer buf len bytes => exact triple_fillBuffer rfl buf len bytes
  | getCursorPos row col rowBytes colBytes => exact triple_getCursorPos rfl row col rowBytes colBytes
  | deliver bottom frame => exact triple_deliver rfl bottom frame

theorem admitted_of_spares {c : Config Kernel Nat Act Act.Result} {i : Nat × AnyCall}
    (spares : SparesZeroFrame c i) : (sys true).Admitted c i := by
  rintro live a k todo -
  cases a with
  | copyOut d v b => exact spares live d v b k todo
  | _ => trivial

/-- A step that spares the zero frame keeps every thread safe. -/
theorem good_anyStep {physFrames : Nat} {c : Config Kernel Nat Act Act.Result}
    (good : (sys true).Good c) (i : Nat × AnyCall) (spares : SparesZeroFrame c i) :
    (sys true).Good (anyStep physFrames c i) :=
  good.step (triple_anyCall physFrames) (admitted_of_spares spares) Kernel.Rely.refl

/-- A step that does not spare the zero frame leaves it dirty. -/
theorem spares_of_clean {physFrames : Nat} {c : Config Kernel Nat Act Act.Result} {i : Nat × AnyCall}
    (clean : ZeroClean (anyStep physFrames c i)) : SparesZeroFrame c i := by
  rintro live d v b k todo ⟨pte, mapped, zero⟩
  obtain ⟨p, hp⟩ := Option.isSome_iff_exists.mp live
  have page : pageOf (v % virtualAddrEnd) = pageOf v := by simp [pageOf]
  have store : c.state.mem.kstore d (v % virtualAddrEnd) b =
      some (c.state.mem.put (zeroFrame + v % virtualAddrEnd % pageSize) b) := by
    obtain ⟨space, hd, state⟩ := Option.map_eq_some_iff.mp mapped
    obtain ⟨pd, hpd, rfl⟩ := Option.map_eq_some_iff.mp hd
    simp [Mem.kstore, hpd, ktranslate, frameOf, page, state, PageState.frame?, zero]
  have after : (anyStep physFrames c i).state.mem.phys =
      (c.state.mem.put (zeroFrame + v % virtualAddrEnd % pageSize) b).phys := by
    simp [anyStep, Sys.step, todo, sys, Kernel.exec, Kernel.kstore, store, hp]
  have zero := clean (v % virtualAddrEnd % pageSize) (off_lt _)
  rw [after] at zero
  simpa [Mem.put] using zero

/-- `SparesZeroFrame` for a thread that is alive, computed. -/
def sparesNow (c : Config Kernel Nat Act Act.Result) (i : Nat × AnyCall) : Bool :=
  match c.todo i.1 with
  | .act (.copyOut d v b) _ => b = 0 || c.state.mem.frameAt d v ≠ some zeroFrame
  | _ => true

theorem spares_of_now {c : Config Kernel Nat Act Act.Result} {i : Nat × AnyCall}
    (now : sparesNow c i = true) : SparesZeroFrame c i := by
  rintro - d v b k todo ⟨pte, mapped, zero⟩
  have frame : c.state.mem.frameAt d v = some zeroFrame := by
    rw [frameAt_eq, mapped, Option.bind_some, PageState.frame?, zero]
  simpa [sparesNow, todo, frame] using now

/-- A process requests a page, which gets a frame of its own, and reads a file into
it. -/
def readIntoPage : List (Nat × AnyCall) :=
  List.replicate 14 (0, .basic (.newPages userMemStart 4096)) ++
    List.replicate 5 (0, .fillBuffer (userMemStart + 5) 1 [65])

/-- An executable of one byte, whose stack is left to the zero frame. -/
def smallImage : Image := ⟨⟨userMemStart, 0, 1⟩, ⟨0, 0, 0⟩, ⟨0, 0, 0⟩, 0, 0, [7]⟩

/-- A process runs it and reads a file into the lowest page of its stack. -/
def readIntoStack : List (Nat × AnyCall) :=
  (0, .basic (.exec (some smallImage) [105] [[105]])) ::
    List.replicate 420 (0, .fillBuffer 0xFFFC0000 1 [65])

end OsKernel.Memory
