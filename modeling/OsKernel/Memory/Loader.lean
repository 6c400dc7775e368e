/-
`load_executable` and its helpers (`kern/loader.c`).

An executable is given as `elf_load_helper` describes it, with the bytes of its
file; the name and the argument strings are given as the kernel reads them. The
loader works in a directory of its own and only at the end, or when it is killed
by a fault it cannot handle, does the PCB name that directory. It reports the
bytes it has placed, in order.
-/

import OsKernel.Memory.Handlers
import Mathlib.Algebra.Group.Nat.Defs

namespace OsKernel.Memory

open OsKernel.Vm Prog

/-- A section that is read from the file. -/
structure Section where
  start : Nat
  off : Nat
  len : Nat

/-- `simple_elf_t` with the file. -/
structure Image where
  txt : Section
  rodat : Section
  dat : Section
  bssStart : Nat
  bssLen : Nat
  file : List UInt8

/-- `GUEST_MEM_SIZE` -/
def guestMemSize : Nat := 0x1400000

/-- `USER_STACK_LEN`, in double words. -/
def userStackLen : Nat := 0x10000

/-- An executable linked below the user space is a guest. -/
def Image.guest (image : Image) : Bool := image.txt.start < userMemStart

abbrev Placed := List (Nat × UInt8)

/-- What `getbytes` copies: the bytes of the file from `off` on, `size` at most. The
arguments are `int`s. -/
def getbytes (file : List UInt8) (off size : Nat) : Option (List UInt8) :=
  if 2 ^ 31 ≤ off ∨ 2 ^ 31 ≤ size ∨ file.length ≤ off then none
  else some ((file.drop off).take size)

/-- `change_access` -/
def changeAccess (d addr size access : Nat) : Program Bool :=
  forAll (fun v => act (.setAccess d v access)) (pagesOf addr size)

/-- `change_availability` -/
def changeAvailability (d addr size availability : Nat) : Program Bool :=
  forAll (fun v => act (.setAvailability d v availability)) (pagesOf addr size)

/-- One page of `map_and_clear`. -/
def mapAndClearPage (d : Nat) (zeroFrame : Bool) (v : Nat) : Program Bool := do
  match ← act (.checkUserPage d v) with
  | none => pure false
  | some .zeroFrameMapped | some .newFrameMapped => pure true
  | some .pdeNotPresent | some .pteNotPresent =>
      match ← act (.getAvailability d v) with
      | some .available => if zeroFrame then act (.mapZeroFrame d v) else mapAndClearNew d v
      | _ => pure false

/-- `map_and_clear` -/
def mapAndClear (d addr size : Nat) (zeroFrame : Bool) : Program Bool :=
  forAll (mapAndClearPage d zeroFrame) (pagesOf addr size)

/-- A byte stored by the loader. A fault that can be repaired is; any other kills
the thread. -/
def placeByte (d v : Nat) (b : UInt8) : Program Unit := do
  if ← act (.place d v b) then pure ()
  else do
    handlePageFault d false true v
    let _ ← act (.place d v b)
    pure ()

def placeBytes (d v : Nat) : List UInt8 → Program Unit
  | [] => pure ()
  | b :: bs => do
      placeByte d v b
      placeBytes d (v + 1) bs

/-- Where the bytes of `placeBytes` go. -/
def placedAt (v : Nat) : List UInt8 → Placed
  | [] => []
  | b :: bs => (v % virtualAddrEnd, b) :: placedAt (v + 1) bs

/-- `push_val`: the new stack pointer and the bytes placed. The bytes above the
value are cleared up to the old stack pointer. -/
def pushVal (d esp : Nat) (val : List UInt8) : Program (Option (Nat × Placed)) :=
  if val = [] then pure (some (esp, []))
  else do
    let newEsp := (esp + virtualAddrEnd - val.length) % virtualAddrEnd / 4 * 4
    if ← mapAndClear d newEsp ((esp + virtualAddrEnd - newEsp) % virtualAddrEnd) false then
      let bytes := val ++ List.replicate (esp - (newEsp + val.length) % virtualAddrEnd) 0
      placeBytes d newEsp bytes
      pure (some (newEsp, placedAt newEsp bytes))
    else pure none

/-- Values pushed one after another: the stack pointer after each of them. -/
def pushVals (d : Nat) : Nat → List (List UInt8) → Program (Option (List Nat × Placed))
  | _, [] => pure (some ([], []))
  | esp, val :: vals => do
      match ← pushVal d esp val with
      | none => pure none
      | some (esp, placed) => match ← pushVals d esp vals with
          | none => pure none
          | some (esps, placed') => pure (some (esp :: esps, placed ++ placed'))

/-- The four bytes of a double word. -/
def word (n : Nat) : List UInt8 :=
  [n.toUInt8, (n / 2 ^ 8).toUInt8, (n / 2 ^ 16).toUInt8, (n / 2 ^ 24).toUInt8]

/-- The strings of the arguments, their array, and the arguments and the return
address of `_main`. -/
def pushArguments (d stackLow stackHigh : Nat) (args : List (List UInt8)) :
    Program (Option (Nat × Placed)) := do
  match ← pushVals d stackHigh (args.map (· ++ [0])) with
  | none => pure none
  | some (esps, strings) =>
      match ← pushVals d (esps.getLast?.getD stackHigh) (if args = [] then [] else [esps.flatMap word]) with
      | none => pure none
      | some (esps', array) =>
          let esp := esps'.getLast?.getD stackHigh
          let argv := esps'.getLast?.getD 0
          match ← pushVals d esp [word stackLow, word stackHigh, word argv, word args.length, word 0] with
          | none => pure none
          | some (esps'', frame) => pure (some (esps''.getLast?.getD esp, strings ++ array ++ frame))

/-- A range made available and mapped to new frames at once. -/
def mapRange (d addr size : Nat) : Program Bool := do
  if ← changeAvailability d addr size 1 then mapAndClear d addr size false else pure false

/-- The pages of the stack are made available, or all the memory of a guest is
mapped. -/
def prepareStack (d : Nat) (guest : Bool) (stackLow : Nat) : Program Bool :=
  if guest then mapRange d userMemStart guestMemSize
  else changeAvailability d stackLow (userStackLen * 4) 1

/-- The user stack: after the arguments are pushed the rest is left to the zero
frame. -/
def loadStack (d : Nat) (guest : Bool) (args : List (List UInt8)) : Program (Option Placed) := do
  let stackHigh := if guest then userMemStart + guestMemSize else 0
  let stackLow := (stackHigh + virtualAddrEnd - userStackLen * 4) % virtualAddrEnd
  if ← prepareStack d guest stackLow then
    match ← pushArguments d stackLow stackHigh args with
    | none => pure none
    | some (esp, placed) =>
        if ← mapAndClear d stackLow ((esp + virtualAddrEnd - stackLow) % virtualAddrEnd) true then
          pure (some placed)
        else pure none
  else pure none

/-- The bytes of a section, copied to address `v`. -/
def copySection (d v : Nat) (file : List UInt8) (s : Section) : Program (Option Placed) :=
  match getbytes file s.off s.len with
  | none => pure none
  | some bytes => if v % virtualAddrEnd = 0 then pure none else do
      placeBytes d v bytes
      pure (some (placedAt v bytes))

/-- A section of an executable that is not a guest. -/
def loadSection (d : Nat) (file : List UInt8) (s : Section) : Program (Option Placed) := do
  if ← mapAndClear d s.start s.len false then copySection d s.start file s else pure none

/-- Sections one after another. -/
def loadSections (load : Section → Program (Option Placed)) :
    List Section → Program (Option Placed)
  | [] => pure (some [])
  | s :: ss => do
      match ← load s with
      | none => pure none
      | some placed => match ← loadSections load ss with
          | none => pure none
          | some placed' => pure (some (placed ++ placed'))

/-- `.text`, and `.rodata` and `.data` when they are not empty. -/
def Image.sections (image : Image) : List Section :=
  image.txt :: [image.rodat, image.dat].filter (0 < ·.len)

/-- The sections of a guest go to the memory mapped for it. -/
def loadGuest (d : Nat) (image : Image) : Program (Option Placed) :=
  loadSections (fun s => copySection d (userMemStart + s.start) image.file s) image.sections

/-- The sections of any other executable, with their access bits and `.bss`. -/
def loadUser (d : Nat) (image : Image) : Program (Option Placed) := do
  let sections := [image.txt, image.rodat, image.dat]
  let ranges := sections.map (fun s => (s.start, s.len)) ++ [(image.bssStart, image.bssLen)]
  if ← forAll (fun range => changeAvailability d range.1 range.2 1) ranges then
    match ← loadSections (loadSection d image.file) image.sections with
    | none => pure none
    | some placed =>
        if ← changeAccess d image.txt.start image.txt.len 0 then
          if ← changeAccess d image.rodat.start image.rodat.len 0 then
            if ← changeAccess d image.dat.start image.dat.len 1 then
              if ← mapAndClear d image.bssStart image.bssLen true then pure (some placed)
              else pure none
            else pure none
          else pure none
        else pure none
  else pure none

/-- The whole image, in a fresh directory. -/
def loadImage (d : Nat) (image : Image) (args : List (List UInt8)) : Program (Option Placed) := do
  match ← loadStack d image.guest args with
  | none => pure none
  | some placed => match ← (if image.guest then loadGuest d image else loadUser d image) with
      | none => pure none
      | some placed' => pure (some (placed ++ placed'))

/-- `load_executable`: the image `elf_load_helper` finds, if any, the name and the
arguments. -/
def loadExecutable (image : Option Image) (name : List UInt8) (args : List (List UInt8)) :
    Program Unit := do
  match image with
  | none => pure ()
  | some image => match ← act .current with
      | none => pure ()
      | some pr => match ← act .constructPageDir with
          | none => pure ()
          | some d =>
              let sizes := [name.length + 1] ++
                (if args = [] then [] else [args.length * 4]) ++ args.map (·.length + 1)
              if ← mallocs sizes then
                match ← loadImage d image args with
                | none => act (.destructPageDir d)
                | some placed => do
                    act (.newImage d image.guest placed)
                    act (.destructPageDir pr.dir)
              else act (.destructPageDir d)

/-- `handle_exec` -/
def exec (image : Option Image) (name : List UInt8) (args : List (List UInt8)) :
    Program Unit := do
  if (← act .threadAliveCount) = 1 then loadExecutable image name args else pure ()

end OsKernel.Memory
