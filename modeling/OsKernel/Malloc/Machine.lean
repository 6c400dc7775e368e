/-
The allocation functions of the kernel (`410kern/malloc`, `kern/malloc_wrappers.c`).

They call the list memory manager with the one manager `malloc_lmm`; `malloc_lmm_in_use` guards
against a call while another one is running. The wrappers of the kernel hold
`mem_allocation_lock` around each call, so that the calls of all threads follow each other: a
`Call` is one of them, or the store of a byte by a thread that uses a block. `memcpy` copies as
if through a buffer, as the routine of `410kern/x86/bcopy.S` does for less than 2 GB.

What the callers own is recorded beside the heap: the blocks that were given and not yet given
back.
-/

import OsKernel.Lmm.Setup
import OsKernel.Lib.Run

namespace OsKernel.Malloc

open OsKernel.Words OsKernel.Lmm OsKernel.Range

structure Heap where
  lmm : Manager
  inUse : Bool

namespace Heap

def mem (h : Heap) : Mem := h.lmm.mem

def setMem (h : Heap) (m : Mem) : Heap := { h with lmm := { h.lmm with mem := m } }

/-- `malloc_lmm_begin`. -/
def enter (h : Heap) : Outcome Heap := do
  check (h.inUse = false)
  pure { h with inUse := true }

/-- `malloc_lmm_end`. -/
def leave (h : Heap) : Outcome Heap := do
  check (h.inUse = true)
  pure { h with inUse := false }

/-- A function of the manager that gives a block, between the two. -/
def allocWith (h : Heap) (alloc : Manager → Outcome (Manager × Nat)) : Outcome (Heap × Nat) := do
  let h ← h.enter
  let got ← alloc h.lmm
  let h ← { h with lmm := got.1 }.leave
  pure (h, got.2)

/-- `lmm_free`, between the two. -/
def freeWith (h : Heap) (block size : Nat) : Outcome Heap := do
  let h ← h.enter
  let l ← Lmm.free h.lmm block size
  { h with lmm := l }.leave

/-- The size in front of a block, and the pointer behind it; 0 stays 0. -/
def label (got : Heap × Nat) (size : Nat) : Heap × Nat :=
  if got.2 = 0 then (got.1, 0)
  else (got.1.setMem (putWord got.1.mem got.2 size), (got.2 + 4) % 2 ^ 32)

end Heap

/-- `memset`. -/
def memset (m : Mem) (p : Nat) (c : BitVec 8) (n : Nat) : Mem := fun x =>
  if p ≤ x ∧ x < p + n then c else m x

def memcpy (m : Mem) (dst src n : Nat) : Mem := fun x =>
  if dst ≤ x ∧ x < dst + n then m (src + (x - dst)) else m x

/-- The loop that finds the alignment in bits. A shift by 32 has no meaning. -/
def findShift (alignment : Nat) : Nat → Nat → Outcome Nat
  | 0, _ => throw .endless
  | fuel + 1, shift =>
      if 2 ^ shift < alignment then findShift alignment fuel (shift + 1) else pure shift

def malloc (h : Heap) (size : Nat) : Outcome (Heap × Nat) := do
  let size := (size + 4) % 2 ^ 32
  let got ← h.allocWith (alloc · size 0)
  pure (Heap.label got size)

def memalign (h : Heap) (alignment size : Nat) : Outcome (Heap × Nat) := do
  let shift ← findShift alignment 32 0
  let size := (size + 4) % 2 ^ 32
  let got ← h.allocWith (allocAligned · size 0 shift ((2 ^ shift + 2 ^ 32 - 4) % 2 ^ 32))
  pure (Heap.label got size)

def calloc (h : Heap) (nelt eltsize : Nat) : Outcome (Heap × Nat) := do
  let allocsize := nelt * eltsize % 2 ^ 32
  let got ← malloc h allocsize
  if got.2 = 0 then pure (got.1, 0)
  else pure (got.1.setMem (memset got.1.mem got.2 0 allocsize), got.2)

def free (h : Heap) (chunkPtr : Nat) : Outcome Heap :=
  let chunk := (chunkPtr + 2 ^ 32 - 4) % 2 ^ 32
  h.freeWith chunk (word h.mem chunk)

def realloc (h : Heap) (buf newSize : Nat) : Outcome (Heap × Nat) :=
  if buf = 0 then malloc h newSize
  else do
    let op := (buf + 2 ^ 32 - 4) % 2 ^ 32
    let oldSize := word h.mem op
    let newSize := (newSize + 4) % 2 ^ 32
    let got ← h.allocWith (alloc · newSize 0)
    if got.2 = 0 then pure (got.1, 0)
    else do
      let h := got.1.setMem
        (memcpy got.1.mem got.2 op (if oldSize < newSize then oldSize else newSize))
      let h ← h.freeWith op oldSize
      pure (h.setMem (putWord h.mem got.2 newSize), (got.2 + 4) % 2 ^ 32)

def smalloc (h : Heap) (size : Nat) : Outcome (Heap × Nat) := h.allocWith (alloc · size 0)

def smemalign (h : Heap) (alignment size : Nat) : Outcome (Heap × Nat) := do
  let shift ← findShift alignment 32 0
  h.allocWith (allocAligned · size 0 shift 0)

def sfree (h : Heap) (chunk size : Nat) : Outcome Heap := h.freeWith chunk size

/-! ### Calls in a row -/

inductive Call where
  | malloc (size : Nat)
  | memalign (alignment size : Nat)
  | calloc (nelt eltsize : Nat)
  | realloc (buf newSize : Nat)
  | free (buf : Nat)
  | smalloc (size : Nat)
  | smemalign (alignment size : Nat)
  | sfree (buf size : Nat)
  | store (addr : Nat) (byte : BitVec 8)

/-- What a call does to the heap, and the pointer that it returns; 0 where it returns none. -/
def Call.exec (h : Heap) : Call → Outcome (Heap × Nat)
  | malloc size => Malloc.malloc h size
  | memalign alignment size => Malloc.memalign h alignment size
  | calloc nelt eltsize => Malloc.calloc h nelt eltsize
  | realloc buf newSize => Malloc.realloc h buf newSize
  | free buf => do pure (← Malloc.free h buf, 0)
  | smalloc size => Malloc.smalloc h size
  | smemalign alignment size => Malloc.smemalign h alignment size
  | sfree buf size => do pure (← Malloc.sfree h buf size, 0)
  | store addr byte => pure (h.setMem (Function.update h.mem addr byte), 0)

/-- A block that the manager gave: `size` bytes from `addr` on. With a header the first word is
its size, and the caller gets what is behind it. -/
structure Block where
  addr : Nat
  size : Nat
  headed : Bool
deriving DecidableEq

namespace Block

/-- The pointer that the caller has. -/
def pointer (b : Block) : Nat := if b.headed then b.addr + 4 else b.addr

/-- How the caller names the block: `free` and `sfree` take pointers of different kinds. -/
def key (b : Block) : Bool × Nat := (b.headed, b.pointer)

/-- The bytes that the caller uses. -/
def payload (b : Block) : Set Nat := Set.Ico b.pointer (b.addr + b.size)

/-- The cells that the manager took for the block. -/
def cells (b : Block) : Range := cellsOf b.addr b.size

end Block

/-- The block that a call gives with the pointer `p`, if it is not 0. -/
def Call.gives (p : Nat) : Call → Option Block
  | malloc size | memalign _ size | realloc _ size => some ⟨p - 4, size + 4, true⟩
  | calloc nelt eltsize => some ⟨p - 4, nelt * eltsize + 4, true⟩
  | smalloc size | smemalign _ size => some ⟨p, size, false⟩
  | free _ | sfree _ _ | store _ _ => none

/-- The block that a call gives back, when the pointer that it returns is `p`. -/
def Call.returns (p : Nat) : Call → Option (Bool × Nat)
  | free buf => some (true, buf)
  | sfree buf _ => some (false, buf)
  | realloc buf _ => if p = 0 then none else some (true, buf)
  | _ => none

/-- The heap, the blocks that are out, and why a call did not return, if one did not. -/
structure State where
  heap : Heap
  live : List Block
  stopped : Option Stop

/-- The blocks that are out after a call that returned `p`. -/
def Call.record (live : List Block) (c : Call) (p : Nat) : List Block :=
  (if p = 0 then none else c.gives p).toList ++
    live.filter fun b => c.returns p ≠ some b.key

def step (s : State) (c : Call) : State :=
  match s.stopped with
  | some _ => s
  | none =>
      match c.exec s.heap with
      | .error why => { s with stopped := some why }
      | .ok done => { s with heap := done.1, live := c.record s.live done.2 }

/-- What the callers keep to: no size wraps, `smalloc` and `smemalign` are asked for a byte at
least, no alignment is above 2 GB, and only blocks that are out are used and given back, each in
its own way. -/
def Legal (s : State) : Call → Prop
  | .malloc size => size + 11 < 2 ^ 32
  | .memalign alignment size => alignment ≤ 2 ^ 31 ∧ size + 4 < 2 ^ 32
  | .calloc nelt eltsize => nelt * eltsize + 11 < 2 ^ 32
  | .realloc buf newSize => newSize + 11 < 2 ^ 32 ∧
      (buf = 0 ∨ ∃ b ∈ s.live, b.headed = true ∧ b.pointer = buf)
  | .free buf => ∃ b ∈ s.live, b.headed = true ∧ b.pointer = buf
  | .smalloc size => 0 < size ∧ size + 7 < 2 ^ 32
  | .smemalign alignment size => alignment ≤ 2 ^ 31 ∧ 0 < size ∧ size < 2 ^ 32
  | .sfree buf size => ∃ b ∈ s.live, b.headed = false ∧ b.pointer = buf ∧ b.size = size
  | .store addr _ => ∃ b ∈ s.live, addr ∈ b.payload

instance (b : Block) (x : Nat) : Decidable (x ∈ b.payload) :=
  inferInstanceAs (Decidable (b.pointer ≤ x ∧ x < b.addr + b.size))

instance (s : State) : DecidablePred (Legal s)
  | .malloc _ | .memalign _ _ | .calloc _ _ | .realloc _ _ | .free _ | .smalloc _ |
    .smemalign _ _ | .sfree _ _ | .store _ _ => by
      unfold Legal
      infer_instance

end OsKernel.Malloc
