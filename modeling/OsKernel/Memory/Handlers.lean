/-
The handlers that work on user memory, as programs: `handle_page_fault`
(`kern/fault_handler.c`), `fork_ctrl_blk` (`kern/ctrl_blk.c`), the system calls
`new_pages`, `remove_pages`, `fork`, `exec`, `vanish`, `task_vanish`, `thread_fork`
and the calls that store into a buffer of the user (`kern/system_call.c`).

A directory that the source reads from `%cr3` is a parameter here. Arithmetic on
addresses is modulo `2 ^ 32`, as on `uint32_t`.
-/

import OsKernel.Memory.Machine

namespace OsKernel.Memory

open OsKernel.Vm Prog

/-- The addresses at which a walk over a range of memory looks: the page of `addr`
and every page after it that starts below `addr + size`. -/
def pagesOf (addr size : Nat) : List Nat :=
  if size = 0 then []
  else
    let start := addr / pageSize * pageSize
    (List.range ((addr + size - start + pageSize - 1) / pageSize)).map fun i => start + i * pageSize

/-- The size of a record (a PCB, a TCB, a list node). Only a size that exceeds the
kernel heap makes a difference to `malloc`. -/
def recordSize : Nat := pageSize

/-! ### Page faults -/

/-- `map_new_frame` and, when it succeeds, `memset` of the page. -/
def mapAndClearNew (d v : Nat) : Program Bool := do
  if ← act (.mapNewFrame d v) then
    act (.clearPage d v)
    pure true
  else pure false

/-- The part of `handle_page_fault` that repairs the page, if it can. -/
def repairPage (d : Nat) (present write : Bool) (v : Nat) : Program Bool :=
  if present = false then do
    -- the PDE or the PTE is not present
    match ← act (.getAvailability d v) with
    | some .available => if write then mapAndClearNew d v else act (.mapZeroFrame d v)
    | _ => pure false
  else do
    -- the first store to a page mapped to the zero frame
    match ← act (.checkUserPage d v) with
    | some .zeroFrameMapped =>
        if ← act (.unmapFrame d v false) then mapAndClearNew d v else pure false
    | _ => pure false

/-- `handle_page_fault`; a thread whose fault cannot be repaired is killed. -/
def handlePageFault (d : Nat) (present write : Bool) (v : Nat) : Program Unit := do
  if ← repairPage d present write v then pure () else act (.vanish d)

/-- A user-mode access. A fault of a guest is not handled here: it is delivered to
the guest, or crashes it. -/
def access (a : Act) (result : a.Result = Completion) (v : Nat) (write : Bool) : Program Unit := do
  match result ▸ (← act a) with
  | .done => pure ()
  | .fault present => match ← act .current with
      | none => pure ()
      | some pr => if pr.guest then pure () else handlePageFault pr.dir present write v

def load (v : Nat) : Program Unit := access (.load v) rfl v false

def store (v : Nat) (b : UInt8) : Program Unit := access (.store v b) rfl v true

/-! ### Pages on request -/

/-- Give back the pages that `new_pages` has already mapped. -/
def releasePages (d page : Nat) : List Nat → Program Unit
  | [] => pure ()
  | j :: js => do
      let _ ← act (.unmapFrame d (page + j * pageSize) true)
      let _ ← act (.setAvailability d (page + j * pageSize) 0)
      releasePages d page js

/-- One page of `new_pages`. -/
def newPage (d v : Nat) : Program Bool := do
  match ← act (.getAvailability d v) with
  | some .unavailable =>
      if ← act (.setAvailability d v 1) then
        if ← mapAndClearNew d v then pure true
        else do
          let _ ← act (.setAvailability d v 0)
          pure false
      else pure false
  | _ => pure false

/-- The loop of `new_pages` from page `i` on, with `n` pages to go. -/
def newPagesLoop (d page : Nat) : Nat → Nat → Program Bool
  | _, 0 => pure true
  | i, n + 1 => do
      if ← newPage d (page + i * pageSize) then newPagesLoop d page (i + 1) n
      else do
        releasePages d page (List.range i)
        pure false

/-- Where `new_pages` puts its record: before the first one with a base that is
not smaller. -/
def insertAllocation (base : Nat) (len : Int) : List (Nat × Int) → List (Nat × Int)
  | [] => [(base, len)]
  | r :: rs => if base ≤ r.1 then (base, len) :: r :: rs else r :: insertAllocation base len rs

/-- `handle_new_pages`, with the two words of its argument array. -/
def newPages (base : Nat) (len : Int) (physFrames : Nat) : Program Unit := do
  match ← act .current with
  | none => pure ()
  | some pr =>
      let count := len.tdiv pageSize
      if base / pageSize * pageSize = base ∧ 0 < count ∧
          count < physFrames - userPageStart / pageSize ∧ count * pageSize = len then
        if ← newPagesLoop pr.dir base 0 count.toNat then
          if ← act (.malloc recordSize) then
            act (.setAllocations (insertAllocation base len pr.allocs))
          else releasePages pr.dir base (List.range count.toNat)
        else pure ()
      else pure ()

/-- The search of `remove_pages`: after the first record it goes on only while
the base is smaller than the one it looks for. Left are the records without the
one found. -/
def findAllocation (base : Nat) : List (Nat × Int) → Option (Int × List (Nat × Int))
  | [] => none
  | (b, len) :: rs =>
      if b = base then some (len, rs)
      else match rs with
        | [] => none
        | next :: _ =>
            if next.1 < base then (findAllocation base rs).map fun out => (out.1, (b, len) :: out.2)
            else none

/-- One page of `remove_pages`. -/
def removePage (d v : Nat) : Program Bool := do
  if ← act (.unmapFrame d v true) then act (.setAvailability d v 0) else pure false

/-- `handle_remove_pages`. -/
def removePages (base : Nat) : Program Unit := do
  match ← act .current with
  | none => pure ()
  | some pr => match findAllocation base pr.allocs with
      | none => pure ()
      | some (len, rest) => do
          act (.setAllocations rest)
          let pages := (List.range ((len.toNat + pageSize - 1) / pageSize)).map
            fun i => base + i * pageSize
          let _ ← forAll (removePage pr.dir) pages
          pure ()

/-! ### Fork -/

/-- `set_availability` of a page of the child, then a map of it. -/
def forkMap (child v : Nat) (map : Program Bool) : Program Bool := do
  if ← act (.setAvailability child v 1) then map else pure false

/-- A page mapped to its own frame, copied to the child through a buffer. -/
def forkPage (parent child v : Nat) : Program Bool := do
  if ← forkMap child v (act (.mapNewFrame child v)) then
    act (.copyPage parent child v)
    match ← act (.getAccess parent v) with
    | some access => do
        let _ ← act (.setAccess child v access.toNat)
        pure true
    | none => pure true
  else pure false

/-- The pages of a PDE of the parent that is not present. -/
def forkTable (parent child v : Nat) (pages : List Nat) : Program Bool := do
  match ← act (.getAvailability parent v) with
  | some .available => forAll (fun page => act (.setAvailability child (page * pageSize) 1)) pages
  | _ => pure true

/-- The loop of `fork_ctrl_blk` over the user pages; `page` is a page number. -/
def forkPages (parent child page : Nat) : Program Bool :=
  if _ : page < virtualAddrEnd / pageSize then do
    let v := page * pageSize
    match ← act (.checkUserPage parent v) with
    | some .pdeNotPresent =>
        let next := (page / pteCount + 1) * pteCount
        if ← forkTable parent child v (List.range' page (next - page)) then
          forkPages parent child next
        else pure false
    | some .pteNotPresent =>
        match ← act (.getAvailability parent v) with
        | some avail =>
            if ← act (.setAvailability child v avail.toNat) then
              forkPages parent child (page + 1)
            else pure false
        | none => pure false
    | some .zeroFrameMapped =>
        if ← forkMap child v (act (.mapZeroFrame child v)) then
          forkPages parent child (page + 1)
        else pure false
    | some .newFrameMapped =>
        if ← forkPage parent child v then forkPages parent child (page + 1) else pure false
    | none => pure false
  else pure true
termination_by virtualAddrEnd / pageSize - page
decreasing_by
  all_goals
    have := Nat.lt_div_mul_add (a := page) (b := pteCount) (by decide)
    simp only [pteCount, pageSize, virtualAddrEnd, Nat.reduceDiv] at *
    omega

/-- Allocations in order, up to the first that fails. -/
def mallocs : List Nat → Program Bool := forAll fun size => act (.malloc size)

/-- `fork_ctrl_blk`: the buffer and the PCB, then the pages, then the records of the
parent, the TCB and the node of its thread list. -/
def forkCtrlBlk : Program Unit := do
  match ← act .current with
  | none => pure ()
  | some pr => match ← act .constructPageDir with
      | none => pure ()
      | some child =>
          if ← mallocs [pageSize, recordSize] then
            if ← forkPages pr.dir child kernelPageCount then
              if ← mallocs (pr.allocs.map (fun _ => recordSize) ++ [recordSize, recordSize]) then
                act (.newProcess child pr.allocs)
              else act (.destructPageDir child)
            else act (.destructPageDir child)
          else act (.destructPageDir child)

/-- `handle_fork` -/
def fork : Program Unit := do
  if (← act .threadAliveCount) = 1 then forkCtrlBlk else pure ()

/-- `handle_thread_fork` with `thread_fork_ctrl_blk`. -/
def threadFork : Program Unit := do
  if ← mallocs [recordSize, recordSize] then act .newThread else pure ()

/-! ### Exit and reaping -/

/-- `handle_vanish`. -/
def vanish : Program Unit := do
  match ← act .current with
  | none => pure ()
  | some pr => act (.vanish pr.dir)

/-- `handle_task_vanish`. -/
def taskVanish : Program Unit := do
  act .killSiblings
  vanish

/-! ### Stores into buffers of the user -/

/-- One page of `is_writable`: a page mapped to the zero frame passes. -/
def writablePage (d v : Nat) : Program Bool := do
  match ← act (.checkUserPage d v) with
  | some .pdeNotPresent | some .pteNotPresent =>
      match ← act (.getAvailability d v) with
      | some .available => pure true
      | _ => pure false
  | some .zeroFrameMapped => pure true
  | some .newFrameMapped => match ← act (.getAccess d v) with
      | some .readWrite => pure true
      | _ => pure false
  | none => pure false

/-- `is_writable`. -/
def isWritable (d addr size : Nat) : Program Bool :=
  if size = 0 then pure true
  else if userMemStart ≤ addr ∧ size ≤ virtualAddrEnd - addr then
    forAll (writablePage d) (pagesOf addr size)
  else pure false

/-- A byte stored by the kernel into memory of the user; a fault is handled and the
store is made again. -/
def copyByte (d v : Nat) (b : UInt8) : Program Unit := do
  if ← act (.copyOut d v b) then pure ()
  else do
    handlePageFault d false true v
    let _ ← act (.copyOut d v b)
    pure ()

def copyBytes (d v : Nat) : List UInt8 → Program Unit
  | [] => pure ()
  | b :: bs => do
      copyByte d v b
      copyBytes d (v + 1) bs

/-- The part of `handle_wait` that touches memory: the check of the status word,
the word itself once a child `p` was found, and the destruction of its directory. -/
def wait (statusPtr p : Nat) (status : List UInt8) : Program Unit := do
  match ← act .current with
  | none => pure ()
  | some pr =>
      if ← (if statusPtr = 0 then pure true else isWritable pr.dir statusPtr 4) then
        match ← act (.detach p) with
        | none => pure ()
        | some dir => do
            (if statusPtr = 0 then pure () else copyBytes pr.dir statusPtr (status.take 4) : Program Unit)
            act (.destructPageDir dir)
      else pure ()

/-- The reaping of an exited process alone: `wait` without a status word. -/
def reap (p : Nat) : Program Unit := wait 0 p []

/-- A call that checks one buffer and fills it, not beyond its length: `readline`
with the characters of the line, `readfile` with the bytes of the file. -/
def fillBuffer (buf len : Nat) (bytes : List UInt8) : Program Unit := do
  match ← act .current with
  | none => pure ()
  | some pr =>
      if ← isWritable pr.dir buf len then copyBytes pr.dir buf (bytes.take len) else pure ()

/-- `handle_get_cursor_pos`: two words. -/
def getCursorPos (row col : Nat) (rowBytes colBytes : List UInt8) : Program Unit := do
  match ← act .current with
  | none => pure ()
  | some pr =>
      if ← isWritable pr.dir row 4 then
        if ← isWritable pr.dir col 4 then do
          copyBytes pr.dir row (rowBytes.take 4)
          copyBytes pr.dir col (colBytes.take 4)
        else pure ()
      else pure ()

/-- `wrap_user_provided_handler`: the frame it builds below the exception stack,
which `handle_swexn` has checked when it was registered. -/
def deliver (bottom : Nat) (frame : List UInt8) : Program Unit := do
  match ← act .current with
  | none => pure ()
  | some pr => copyBytes pr.dir bottom frame

end OsKernel.Memory
