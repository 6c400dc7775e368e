/-
The list memory manager (`410kern/lmm`).

A region keeps the addresses from `min` to `max`, and a list of its free blocks. The node of a
free block, its `next` and its `size`, lies in the block itself, in the memory of bytes `mem`;
0 is the null pointer. The headers of the regions lie outside the managed memory, and the
manager is the list of them in the order of their `next` fields. A pointer `nodep` to the pointer to a
node is `none` for the head in the region's header and `some` of the node that holds it.

Addresses and sizes are 32-bit numbers: what can wrap is taken modulo `2 ^ 32`. A function
stops at an assertion that fails. A loop over nodes takes `rounds` rounds at most, one more
than there are addresses that are multiples of 8. That a header is not added twice
(`assert(r != reg)`) is left out, since a header has no address here.
-/

import OsKernel.Lib.Words

namespace OsKernel.Lmm

open OsKernel.Words

/-- Why a call does not return. -/
inductive Stop where
  | assertion
  | endless
deriving DecidableEq

abbrev Outcome := Except Stop

def check (p : Prop) [Decidable p] : Outcome Unit := if p then pure () else throw .assertion

/-- `struct lmm_region`. What `lmm_add_region` sets up stays. -/
structure Region where
  nodes : Nat
  min : Nat
  max : Nat
  flags : BitVec 32
  pri : Nat
  free : Nat
  min_lt : min < max
  max_lt : max < 2 ^ 32
  min_aligned : min % 8 = 0
  max_aligned : max % 8 = 0
deriving DecidableEq

/-- The memory, and the region that a loop is at. -/
structure At where
  mem : Mem
  reg : Region

namespace At

def next (s : At) (node : Nat) : Nat := word s.mem node

def size (s : At) (node : Nat) : Nat := word s.mem (node + 4)

def setNext (s : At) (node p : Nat) : At := { s with mem := putWord s.mem node p }

def setSize (s : At) (node n : Nat) : At := { s with mem := putWord s.mem (node + 4) n }

def setNodes (s : At) (p : Nat) : At := { s with reg := { s.reg with nodes := p } }

def setFree (s : At) (n : Nat) : At := { s with reg := { s.reg with free := n } }

/-- `*nodep`. -/
def deref (s : At) : Option Nat → Nat
  | none => s.reg.nodes
  | some node => s.next node

/-- `*nodep = p`. -/
def assign (s : At) (nodep : Option Nat) (p : Nat) : At :=
  match nodep with
  | none => s.setNodes p
  | some node => s.setNext node p

end At

/-- `lmm_t`. -/
structure Manager where
  mem : Mem
  regions : List Region

def rounds : Nat := 2 ^ 29 + 1

/-- `(n + ALIGN_MASK) & ~ALIGN_MASK`. -/
def alignUp (n : Nat) : Nat := (n + 7) % 2 ^ 32 / 8 * 8

/-- `n & ~ALIGN_MASK`. -/
def alignDown (n : Nat) : Nat := n / 8 * 8

/-- `flags & ~reg->flags`. -/
def Region.lacks (reg : Region) (flags : BitVec 32) : Bool := flags &&& ~~~reg.flags ≠ 0

/-- What the functions that allocate assert of each region. -/
def Region.sane (reg : Region) : Prop :=
  (reg.nodes = 0 ∧ reg.free = 0 ∨ reg.min ≤ reg.nodes) ∧ reg.free ≤ reg.max - reg.min

instance (reg : Region) : Decidable reg.sane := inferInstanceAs (Decidable (_ ∧ _))

/-- What they assert of each node. -/
def At.sane (s : At) (node : Nat) : Prop :=
  node % 8 = 0 ∧ s.size node % 8 = 0 ∧ (s.next node = 0 ∨ node < s.next node) ∧ node < s.reg.max

instance (s : At) (node : Nat) : Decidable (s.sane node) := inferInstanceAs (Decidable (_ ∧ _))

/-! ### `lmm_init`, `lmm_add_region` -/

def init (mem : Mem) : Manager := ⟨mem, []⟩

/-- The place of a region: before the first one of lower priority, or of the same and not larger. -/
def insertRegion (reg : Region) : List Region → Outcome (List Region)
  | [] => pure [reg]
  | r :: rest =>
      if r.pri > reg.pri ∨ r.pri = reg.pri ∧ r.max - r.min > reg.max - reg.min then do
        check (reg.max ≤ r.min ∨ reg.min ≥ r.max)
        pure (r :: (← insertRegion reg rest))
      else pure (reg :: r :: rest)

def addRegion (l : Manager) (addr size : Nat) (flags : BitVec 32) (pri : Nat) : Outcome Manager := do
  let min := alignUp addr
  let max := alignDown ((addr + size) % 2 ^ 32)
  if lt : min < max then
    let reg : Region :=
      { nodes := 0, min := min, max := max, flags := flags, pri := pri, free := 0, min_lt := lt,
        max_lt := Nat.lt_of_le_of_lt (Nat.div_mul_le_self _ 8) (Nat.mod_lt _ (by decide)),
        min_aligned := Nat.mul_mod_left _ 8, max_aligned := Nat.mul_mod_left _ 8 }
    pure { l with regions := ← insertRegion reg l.regions }
  else pure l

/-! ### `lmm_alloc` -/

/-- Take `size` bytes from the node that `nodep` points to. -/
def takeHead (s : At) (nodep : Option Nat) (node size : Nat) : At :=
  if size < s.size node then
    -- Split the node and return its head.
    let newnode := (node + size) % 2 ^ 32
    let s := s.setNext newnode (s.next node)
    let s := s.setSize newnode (s.size node - size)
    s.assign nodep newnode
  else s.assign nodep (s.next node)

/-- The loop over the nodes of a region. -/
def allocNodes (size : Nat) : Nat → At → Option Nat → Outcome (Option (At × Nat))
  | 0, _, _ => throw .endless
  | fuel + 1, s, nodep =>
      let node := s.deref nodep
      if node = 0 then pure none
      else do
        check (s.sane node)
        if size ≤ s.size node then do
          let s := takeHead s nodep node size
          check (size ≤ s.reg.free)
          pure (some (s.setFree (s.reg.free - size), node))
        else allocNodes size fuel s (some node)

/-- The loop over the regions: `find` searches one of them, unless it is passed over. -/
def eachRegion (skip : Region → Bool) (find : At → Outcome (Option (At × Nat))) (mem : Mem) :
    List Region → Outcome (Option (Mem × List Region × Nat))
  | [] => pure none
  | reg :: rest => do
      check reg.sane
      match ← if skip reg then pure none else find ⟨mem, reg⟩ with
      | some found => pure (some (found.1.mem, found.1.reg :: rest, found.2))
      | none =>
          let later ← eachRegion skip find mem rest
          pure (later.map fun found => (found.1, reg :: found.2.1, found.2.2))

/-- The block, or 0. -/
def result (l : Manager) : Option (Mem × List Region × Nat) → Manager × Nat
  | some found => (⟨found.1, found.2.1⟩, found.2.2)
  | none => (l, 0)

def alloc (l : Manager) (size : Nat) (flags : BitVec 32) : Outcome (Manager × Nat) := do
  check (0 < size)
  let found ← eachRegion (·.lacks flags) (allocNodes (alignUp size) rounds · none) l.mem l.regions
  pure (result l found)

/-! ### `lmm_alloc_gen` -/

/-- The loop over the bits of the alignment. -/
def adjust (alignBits alignOfs addr : Nat) : Nat :=
  (List.range alignBits).foldl
    (fun addr i =>
      let bit := 2 ^ i
      if (addr ^^^ alignOfs) &&& bit ≠ 0 then (addr + bit) % 2 ^ 32 else addr)
    addr

/-- What a node is asked for. -/
structure Request where
  size : Nat
  alignBits : Nat
  alignOfs : Nat
  inMin : Nat
  inMax : Nat

namespace Request

/-- The address at which the block would start in a node. -/
def addr (q : Request) (node : Nat) : Nat :=
  adjust q.alignBits q.alignOfs (if node < q.inMin then q.inMin else node)

/-- The adjusted block is not within the node. -/
def misfits (q : Request) (s : At) (node : Nat) : Prop :=
  s.size node < q.size ∨ s.size node < ((q.addr node + 2 ^ 32 - node) % 2 ^ 32 + q.size) % 2 ^ 32

instance (q : Request) (s : At) (node : Nat) : Decidable (q.misfits s node) :=
  inferInstanceAs (Decidable (_ ∨ _))

end Request

/-- Take the block at `addr` from the node that `nodep` points to. -/
def takeAt (s : At) (nodep : Option Nat) (node addr size : Nat) : Outcome (At × Nat) := do
  let anode := alignDown addr
  check (node ≤ anode)
  let split := anode - node
  let s := if node < anode then
      let s := s.setNext anode (s.next node)
      let s := s.setSize anode (s.size node - split)
      s.setSize node split
    else s
  let nodep := if node < anode then some node else nodep
  let size := alignUp (addr % 8 + size)
  let s := takeHead s nodep anode size
  check (size ≤ s.reg.free)
  pure (s.setFree (s.reg.free - size), addr)

def allocGenNodes (q : Request) : Nat → At → Option Nat → Outcome (Option (At × Nat))
  | 0, _, _ => throw .endless
  | fuel + 1, s, nodep =>
      let node := s.deref nodep
      if node = 0 then pure none
      else do
        check (s.sane node)
        if q.misfits s node then allocGenNodes q fuel s (some node)
        else if q.inMax < (q.addr node + q.size) % 2 ^ 32 then pure none
        else do
          let found ← takeAt s nodep node (q.addr node) q.size
          pure (some found)

def allocGen (l : Manager) (size : Nat) (flags : BitVec 32) (alignBits alignOfs inMin inSize : Nat) :
    Outcome (Manager × Nat) := do
  let q : Request := ⟨size, alignBits, alignOfs, inMin, (inMin + inSize) % 2 ^ 32⟩
  check (0 < size)
  let skip := fun reg : Region => reg.lacks flags || q.inMax ≤ reg.min || reg.max ≤ q.inMin
  let found ← eachRegion skip (allocGenNodes q rounds · none) l.mem l.regions
  pure (result l found)

def allocAligned (l : Manager) (size : Nat) (flags : BitVec 32) (alignBits alignOfs : Nat) :
    Outcome (Manager × Nat) :=
  allocGen l size flags alignBits alignOfs 0 (2 ^ 32 - 1)

/-! ### `lmm_free` -/

/-- The nodes between which a block goes: the last one below it, and the next one. -/
def findPlace (node : Nat) : Nat → At → Nat → Nat → Outcome (Nat × Nat)
  | 0, _, _, _ => throw .endless
  | fuel + 1, s, prevnode, nextnode =>
      if nextnode ≠ 0 ∧ nextnode < node then
        findPlace node fuel s nextnode (s.next nextnode)
      else pure (prevnode, nextnode)

/-- Put the block between the two nodes, or melt it with them. -/
def coalesce (s : At) (node size prevnode nextnode : Nat) : Outcome At :=
  if prevnode ≠ 0 ∧ (prevnode + s.size prevnode) % 2 ^ 32 ≥ node then do
    check ((prevnode + s.size prevnode) % 2 ^ 32 = node)
    if nextnode ≠ 0 ∧ (node + size) % 2 ^ 32 ≥ nextnode then do
      check ((node + size) % 2 ^ 32 = nextnode)
      let s := s.setSize prevnode ((s.size prevnode + (size + s.size nextnode)) % 2 ^ 32)
      pure (s.setNext prevnode (s.next nextnode))
    else pure (s.setSize prevnode ((s.size prevnode + size) % 2 ^ 32))
  else
    let s := if prevnode ≠ 0 then s.setNext prevnode node else s.setNodes node
    if nextnode ≠ 0 ∧ (node + size) % 2 ^ 32 ≥ nextnode then
      let s := s.setSize node ((size + s.size nextnode) % 2 ^ 32)
      pure (s.setNext node (s.next nextnode))
    else
      let s := s.setSize node size
      pure (s.setNext node nextnode)

/-- The block in the region that it belongs to. -/
def freeIn (s : At) (node size : Nat) : Outcome At := do
  let s := s.setFree ((s.reg.free + size) % 2 ^ 32)
  check (s.reg.free ≤ s.reg.max - s.reg.min)
  let place ← findPlace node rounds s 0 s.reg.nodes
  coalesce s node size place.1 place.2

/-- The search for the region, and what is done there. -/
def freeRegions (node size : Nat) (mem : Mem) : List Region → Outcome (Mem × List Region)
  | [] => throw .assertion
  | reg :: rest => do
      check (reg.nodes = 0 ∧ reg.free = 0 ∨ reg.min ≤ reg.nodes)
      if reg.min ≤ node ∧ node < reg.max then do
        let s ← freeIn ⟨mem, reg⟩ node size
        pure (s.mem, s.reg :: rest)
      else do
        let later ← freeRegions node size mem rest
        pure (later.1, reg :: later.2)

def free (l : Manager) (block size : Nat) : Outcome Manager := do
  let node := alignDown block
  check (block ≠ 0)
  check (0 < size)
  let size := alignUp (block % 8 + size)
  let done ← freeRegions node size l.mem l.regions
  pure ⟨done.1, done.2⟩

/-! ### `lmm_add_free` -/

/-- The part of the block that falls within one region. -/
def addFreeTo (min max : Nat) (l : Manager) (reg : Region) : Outcome Manager := do
  if reg.min < max ∧ min < reg.max then do
    let newMin := if min < reg.min then reg.min else min
    let newMax := if reg.max < max then reg.max else max
    check (newMin < newMax)
    free l newMin (newMax - newMin)
  else pure l

/-- The bounds of the regions stay, so they are read from the first state. -/
def addFree (l : Manager) (block size : Nat) : Outcome Manager := do
  let min := alignUp block
  let max := alignDown ((block + size) % 2 ^ 32)
  check (min ≤ max)
  if max = min then pure l else l.regions.foldlM (addFreeTo min max) l

/-! ### `lmm_find_free`, `lmm_remove_free`, `lmm_avail` -/

/-- The lowest free block found so far. -/
structure Lowest where
  addr : Nat
  size : Nat
  flags : BitVec 32

def findFreeNodes (startAddr : Nat) : Nat → At → Nat → Lowest → Outcome Lowest
  | 0, _, _, _ => throw .endless
  | fuel + 1, s, node, low =>
      if node = 0 then pure low
      else do
        check (s.reg.min ≤ node)
        check (node < s.reg.max)
        if low.addr ≤ node then pure low
        else if startAddr < (node + s.size node) % 2 ^ 32 then
          if startAddr < node then pure ⟨node, s.size node, s.reg.flags⟩
          else pure ⟨startAddr, s.size node - (startAddr - node), s.reg.flags⟩
        else findFreeNodes startAddr fuel s (s.next node) low

def findFreeIn (mem : Mem) (startAddr : Nat) (low : Lowest) (reg : Region) : Outcome Lowest :=
  if reg.nodes = 0 ∨ reg.max ≤ startAddr ∨ low.addr < reg.min then pure low
  else findFreeNodes startAddr rounds ⟨mem, reg⟩ reg.nodes low

def findFree (l : Manager) (addr : Nat) : Outcome Lowest :=
  l.regions.foldlM (findFreeIn l.mem (alignUp addr)) ⟨2 ^ 32 - 1, 0, 0⟩

/-- The loop of `lmm_remove_free`. -/
def removeLoop (block rend : Nat) : Nat → Manager → Nat → Outcome Manager
  | 0, _, _ => throw .endless
  | fuel + 1, l, rstart =>
      if rstart < rend then do
        let low ← findFree l rstart
        check (block ≤ low.addr)
        if low.size = 0 ∨ rend ≤ low.addr then pure l
        else do
          let size := if rend < (low.addr + low.size) % 2 ^ 32 then rend - low.addr else low.size
          let got ← allocGen l size low.flags 0 0 low.addr size
          check (got.2 = low.addr)
          removeLoop block rend fuel got.1 low.addr
      else pure l

def removeFree (l : Manager) (block blockSize : Nat) : Outcome Manager := do
  let rend := (block + blockSize) % 2 ^ 32
  check (block < rend)
  removeLoop block rend rounds l block

def availIn (flags : BitVec 32) (count : Nat) (reg : Region) : Outcome Nat := do
  check (reg.nodes = 0 ↔ reg.free = 0)
  if reg.nodes = 0 then pure count
  else do
    check (reg.min ≤ reg.nodes ∧ reg.nodes < reg.max)
    check (reg.free ≤ reg.max - reg.min)
    pure (if reg.lacks flags then count else (count + reg.free) % 2 ^ 32)

def avail (l : Manager) (flags : BitVec 32) : Outcome Nat := l.regions.foldlM (availIn flags) 0

end OsKernel.Lmm
