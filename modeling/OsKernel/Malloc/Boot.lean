/-
The heap at boot (`410kern/boot/util_lmm.c`, `410kern/entry.c`).

`mb_util_lmm` gives the manager all memory that no hole takes: it looks for the next stretch
between the holes, and starts over behind a hole that it runs into. `mb_entry` asks for more than
16 MB before, and then takes back what lies below 1 MB and above `USER_MEM_START`; the `_malloc`
of `mb_util_cmdline` comes after that. A guest kernel starts with what lies between its own end
and `USER_MEM_START`. Physical and virtual addresses are the same here.
-/

import OsKernel.Malloc.Sound

namespace OsKernel.Malloc

open OsKernel.Words OsKernel.Lmm OsKernel.Range

def userMemStart : Nat := 0x1000000

def pageSize : Nat := 0x1000

/-! ### The holes -/

/-- `struct multiboot_module`, and the length of its string. -/
structure Module where
  modStart : Nat
  modEnd : Nat
  string : Nat
  length : Nat

def multibootMemory : BitVec 32 := 1
def multibootCmdline : BitVec 32 := 4
def multibootMods : BitVec 32 := 8

/-- What `mb_entry` and `mb_util_lmm` read: the boot information with the command line and the
modules, and where the kernel lies. -/
structure BootInfo where
  flags : BitVec 32
  memLower : Nat
  memUpper : Nat
  cmdline : Nat
  cmdlineLength : Nat
  modsAddr : Nat
  modules : List Module
  kernelStart : Nat
  kimgStart : Nat
  kernelEnd : Nat

abbrev Hole := Nat × Nat

def BootInfo.has (i : BootInfo) (flag : BitVec 32) : Bool := i.flags &&& flag != 0

/-- `cmdline_start_pa` -/
def BootInfo.cmdlineStart (i : BootInfo) : Nat := if i.has multibootCmdline then i.cmdline else 0

/-- `cmdline_end_pa` -/
def BootInfo.cmdlineEnd (i : BootInfo) : Nat :=
  if i.cmdlineStart = 0 then 0 else (i.cmdlineStart + i.cmdlineLength + 1) % 2 ^ 32

/-- `n_phys_frames` -/
def BootInfo.physFrames (i : BootInfo) : Nat := (i.memUpper + 1024) % 2 ^ 32 / (pageSize / 1024)

/-- The regions to skip, in the order of the `skip` lines. -/
def BootInfo.holes (i : BootInfo) : List Hole :=
  [(i.memLower * 1024 % 2 ^ 32, 0x100000),
    ((0x100000 + i.memUpper * 1024) % 2 ^ 32, 0xffffffff),
    (i.kernelStart, i.kernelEnd),
    (i.kimgStart, i.kernelEnd),
    (i.cmdlineStart, i.cmdlineEnd)] ++
  if i.has multibootMods ∧ i.modules ≠ [] then
    (i.modsAddr, (i.modsAddr + i.modules.length * 16) % 2 ^ 32) ::
      i.modules.flatMap fun m =>
        (if m.string = 0 then [] else [(m.string, (m.string + m.length + 1) % 2 ^ 32)]) ++
          [(m.modStart, m.modEnd)]
  else []

/-- How the `skip` lines end: with a jump to `retry`, or with an end for the stretch. -/
inductive Skip where
  | retry (min : Nat)
  | stretch (max : Nat)

def skip : List Hole → Nat → Nat → Skip
  | [], _, max => .stretch max
  | hole :: holes, min, max =>
      if max > hole.1 ∧ min < hole.2 then
        if min < hole.1 then skip holes min hole.1 else .retry hole.2
      else skip holes min max

/-- The loop, one round at a time. -/
def addLoop (holes : List Hole) : Nat → Manager → Nat → Outcome Manager
  | 0, _, _ => throw .endless
  | fuel + 1, l, min =>
      match skip holes min 0xffffffff with
      | .retry min => if min < 0xffffffff then addLoop holes fuel l min else pure l
      | .stretch max => do
          let l ← addFree l min (max - min)
          if max < 0xffffffff then addLoop holes fuel l max else pure l

def lmmf1MB : BitVec 32 := 1
def lmmf16MB : BitVec 32 := 2

/-- The priorities are unsigned. -/
def lmmPri1MB : Nat := 2 ^ 32 - 2
def lmmPri16MB : Nat := 2 ^ 32 - 1
def lmmPriHigh : Nat := 0

def mbUtilLmm (mem : Mem) (i : BootInfo) : Outcome Manager := do
  let l := init mem
  let l ← addRegion l 0 0x100000 (lmmf1MB ||| lmmf16MB) lmmPri1MB
  let l ← addRegion l 0x100000 0xf00000 lmmf16MB lmmPri16MB
  let l ← addRegion l 0x1000000 0xfeffffff 0 lmmPriHigh
  addLoop i.holes (2 ^ 32) l 0x500

/-- `mb_entry` up to `mb_util_cmdline`. -/
def mbEntry (mem : Mem) (i : BootInfo) : Outcome Manager := do
  check (i.has multibootMemory)
  check (i.physFrames > userMemStart / pageSize)
  let l ← mbUtilLmm mem i
  let l ← removeFree l 0 0x100000
  removeFree l userMemStart (2 ^ 32 - 8 - userMemStart)

/-- `hv_guest_entry`, as far as the heap goes. The number of frames is signed. -/
def hvGuestEntry (mem : Mem) (maxframe : BitVec 32) (kernelEnd : Nat) : Outcome Manager := do
  check ((maxframe - 4 + 1).toInt > (userMemStart / pageSize : Nat))
  let l ← addRegion (init mem) 0 userMemStart 0 1
  addFree l kernelEnd (userMemStart - kernelEnd)

/-- The heap after boot: nothing is out. -/
def booted (l : Manager) : State := ⟨⟨l, false⟩, [], none⟩

/-! ### The stretches -/

variable {holes : List Hole} {min max x fuel : Nat} {l : Manager} {S : Set Nat} {regions : List Region}

/-- No hole takes the address. -/
def Clear (holes : List Hole) (x : Nat) : Prop := ∀ h ∈ holes, ¬(h.1 ≤ x ∧ x < h.2)

/-- The stretch ends at a hole or at the limit, and no hole takes any of it; or the search runs
into a hole. -/
theorem skip_spec (holes : List Hole) (min max : Nat) (lt : min < max) :
    (∃ m, skip holes min max = .retry m ∧ ∃ h ∈ holes, h.1 ≤ min ∧ min < m ∧ h.2 = m) ∨
    ∃ m, skip holes min max = .stretch m ∧ min < m ∧ m ≤ max ∧
      (m = max ∨ ∃ h ∈ holes, h.1 = m ∧ min < h.2) ∧ ∀ x, min ≤ x → x < m → Clear holes x := by
  induction holes generalizing max with
  | nil => exact .inr ⟨max, rfl, lt, le_refl _, .inl rfl, by simp [Clear]⟩
  | cons hole holes ih =>
      rw [skip]
      split
      · rename_i meets
        split
        · rename_i before
          rcases ih hole.1 before with ⟨m, retry, h, mem, bounds⟩ | ⟨m, found, low, high, ends, clear⟩
          · exact .inl ⟨m, retry, h, List.mem_cons_of_mem _ mem, bounds⟩
          · refine .inr ⟨m, found, low, by omega, .inr ?_, ?_⟩
            · rcases ends with rfl | ⟨h, mem, same⟩
              · exact ⟨hole, List.mem_cons_self, rfl, meets.2⟩
              · exact ⟨h, List.mem_cons_of_mem _ mem, same⟩
            · intro x above below h mem
              rcases List.mem_cons.mp mem with rfl | mem
              · omega
              · exact clear x above below h mem
        · exact .inl ⟨hole.2, rfl, hole, List.mem_cons_self, by omega, meets.2, rfl⟩
      · rename_i misses
        rcases ih max lt with ⟨m, retry, h, mem, bounds⟩ | ⟨m, found, low, high, ends, clear⟩
        · exact .inl ⟨m, retry, h, List.mem_cons_of_mem _ mem, bounds⟩
        · refine .inr ⟨m, found, low, high, ends.imp_right ?_, ?_⟩
          · rintro ⟨h, mem, same⟩
            exact ⟨h, List.mem_cons_of_mem _ mem, same⟩
          · intro x above below h mem
            rcases List.mem_cons.mp mem with rfl | mem
            · omega
            · exact clear x above below h mem

/-! ### The loop -/

/-- Above the BIOS data, below the limit, and in no hole. -/
def Usable (holes : List Hole) (x : Nat) : Prop := 0x500 ≤ x ∧ x < 0xffffffff ∧ Clear holes x

/-- A stretch between holes that lies strictly within one cell. -/
structure Sliver (holes : List Hole) (a b : Nat) : Prop where
  lt : a < b
  usable : ∀ x, a ≤ x → x < b → Usable holes x
  start : ¬Usable holes (a - 1)
  finish : ¬Usable holes b
  narrow : b < (a + 7) / 8 * 8

/-- What the boot loader promises of the holes: each has an end behind its start, unless it lies
below the first address, and the last one reaches the limit. -/
structure Sensible (holes : List Hole) : Prop where
  proper : ∀ h ∈ holes, h.2 < 2 ^ 32 ∧ (h.1 < h.2 ∨ h.2 ≤ 0x500)
  top : ∃ h ∈ holes, h.1 + 16 ≤ 2 ^ 32 ∧ h.2 = 0xffffffff

/-- The whole cells of the regions that no hole takes a byte of. -/
def usableCells (holes : List Hole) (regions : List Region) : Set Nat :=
  {x | x ∈ span regions ∧ ∀ y, y / 8 = x / 8 → Usable holes y}

/-- Those of them that end at or below an address. -/
def cellsBelow (holes : List Hole) (regions : List Region) (min : Nat) : Set Nat :=
  {x | x ∈ usableCells holes regions ∧ x / 8 * 8 + 8 ≤ min}

/-- Where a round of the loop starts: nothing usable is cut there. -/
def Edge (holes : List Hole) (min : Nat) : Prop :=
  0x500 ≤ min ∧ (¬Usable holes (min - 1) ∨ ¬Usable holes min)

/-- A round that runs into a hole goes on behind it, and passes over nothing usable. -/
theorem retry_spec {m : Nat} {h : Hole} (regions : List Region) (edge : Edge holes min)
    (mem : h ∈ holes) (low : h.1 ≤ min) (lt : min < m) (same : h.2 = m) :
    Edge holes m ∧ cellsBelow holes regions m = cellsBelow holes regions min ∧
      ∀ x, min ≤ x → x < m → ¬Usable holes x := by
  have taken : ∀ x, min ≤ x → x < m → ¬Usable holes x := fun x above below usable =>
    usable.2.2 h mem ⟨by omega, by omega⟩
  have first := edge.1
  refine ⟨⟨by omega, .inl (taken (m - 1) (by omega) (by omega))⟩, ?_, taken⟩
  ext x
  constructor
  · rintro ⟨cells, ends⟩
    refine ⟨cells, ?_⟩
    by_contra cut
    exact taken (x / 8 * 8 + 7) (by omega) (by omega) (cells.2 _ (by omega))
  · rintro ⟨cells, ends⟩
    exact ⟨cells, by omega⟩

/-- A stretch is usable, and cannot be made longer. -/
theorem stretch_spec {m : Nat} (sensible : Sensible holes) (edge : Edge holes min)
    (lt : min < m) (le : m ≤ 0xffffffff)
    (ends : m = 0xffffffff ∨ ∃ h ∈ holes, h.1 = m ∧ min < h.2)
    (clear : ∀ x, min ≤ x → x < m → Clear holes x) :
    min + 16 < 2 ^ 32 ∧ (∀ x, min ≤ x → x < m → Usable holes x) ∧ ¬Usable holes (min - 1) ∧
      ¬Usable holes m := by
  have first := edge.1
  have usable : ∀ x, min ≤ x → x < m → Usable holes x := fun x above below =>
    ⟨by omega, by omega, clear x above below⟩
  refine ⟨?_, usable, edge.2.resolve_right fun no => no (usable min (le_refl _) lt), ?_⟩
  · obtain ⟨h, mem, low, high⟩ := sensible.top
    by_contra above
    exact clear min (le_refl _) lt h mem ⟨by omega, by omega⟩
  · rintro ⟨-, below, free⟩
    rcases ends with rfl | ⟨h, mem, rfl, behind⟩
    · exact absurd below (lt_irrefl _)
    · have proper := (sensible.proper h mem).2
      exact free h mem ⟨le_refl _, by omega⟩

/-- The cells of a stretch are the next ones. -/
theorem cellsBelow_stretch {m : Nat} (regions : List Region) (first : 0x500 ≤ min)
    (usable : ∀ x, min ≤ x → x < m → Usable holes x) (start : ¬Usable holes (min - 1))
    (lt : min < m) :
    cellsBelow holes regions m = cellsBelow holes regions min ∪
      (Set.Ico ((min + 7) / 8 * 8) (m / 8 * 8) ∩ span regions) := by
  ext x
  constructor
  · rintro ⟨cells, ends⟩
    by_cases before : x / 8 * 8 + 8 ≤ min
    · exact .inl ⟨cells, before⟩
    · refine .inr ⟨⟨?_, by omega⟩, cells.1⟩
      by_contra cut
      exact start (cells.2 (min - 1) (by omega))
  · rintro (⟨cells, ends⟩ | ⟨⟨low, high⟩, inside⟩)
    · exact ⟨cells, by omega⟩
    · exact ⟨⟨inside, fun y same => usable y (by omega) (by omega)⟩, by omega⟩

/-- At the limit they are all below. -/
theorem cellsBelow_limit {m : Nat} (past : 0xffffffff ≤ m) :
    cellsBelow holes regions m = usableCells holes regions := by
  ext x
  constructor
  · exact fun cells => cells.1
  · intro cells
    have := (cells.2 (x / 8 * 8 + 7) (by omega)).2.1
    exact ⟨cells, by omega⟩

/-- A sliver that starts in a stretch is the stretch. -/
theorem Sliver.eq_stretch {a b m : Nat} (sliver : Sliver holes a b) (low : min ≤ a) (near : a < m)
    (usable : ∀ x, min ≤ x → x < m → Usable holes x) (finish : ¬Usable holes m) :
    a = min ∧ b = m := by
  have start : a = min := by
    by_contra inside
    exact sliver.start (usable (a - 1) (by omega) (by omega))
  refine ⟨start, ?_⟩
  rcases Nat.lt_trichotomy b m with less | same | more
  · exact absurd (usable b (by have := sliver.lt; omega) less) sliver.finish
  · exact same
  · exact absurd (sliver.usable m (by omega) more) finish

/-- The cells of a stretch become free; when it ends before its first cell does begin, an assertion
fails. -/
theorem addStretch_spec {m : Nat}
    (h : Stocked l.mem l.regions (cellsBelow holes l.regions min)) (first : 0x500 ≤ min)
    (high : min + 16 < 2 ^ 32) (lt : min < m) (le : m ≤ 0xffffffff)
    (usable : ∀ x, min ≤ x → x < m → Usable holes x) (start : ¬Usable holes (min - 1)) :
    if m < (min + 7) / 8 * 8 then addFree l min (m - min) = .error .assertion
    else ∃ l', addFree l min (m - min) = .ok l' ∧
      Stocked l'.mem l'.regions (cellsBelow holes l'.regions m) ∧
      List.Forall₂ Alike l.regions l'.regions := by
  have up := alignUp_eq (n := min) (by omega)
  have down : alignDown (min + (m - min)) = m / 8 * 8 := by
    rw [alignDown]
    congr 2
    omega
  split
  · rename_i narrow
    have wrap : (min + (m - min)) % 2 ^ 32 = min + (m - min) := Nat.mod_eq_of_lt (by omega)
    rw [addFree]
    simp only [wrap, down, up, check]
    rw [if_neg (by omega)]
    rfl
  · have grown := cellsBelow_stretch l.regions first usable start lt
    obtain ⟨l', done, stocked, alike⟩ := addFree_spec ((min + 7) / 8 * 8) (m / 8 * 8) h
      up.symm down.symm (by omega) (by omega) (by omega)
      (fun x inside free => by
        have := free.2
        have := inside.1
        omega)
    have same : cellsBelow holes l'.regions m = cellsBelow holes l.regions m := by
      rw [cellsBelow, usableCells, span_alike alike]
      rfl
    rw [← grown, ← same] at stocked
    exact ⟨l', done, stocked, alike⟩

/-- What the loop comes to from an edge on: all usable cells are free, unless a sliver comes; then an
assertion fails. -/
def Fills (holes : List Hole) (l : Manager) (min : Nat) (outcome : Outcome Manager) : Prop :=
  ((∀ a b, min ≤ a → ¬Sliver holes a b) → ∃ l', outcome = .ok l' ∧
    Stocked l'.mem l'.regions (usableCells holes l'.regions) ∧
    List.Forall₂ Alike l.regions l'.regions) ∧
  ((∃ a b, min ≤ a ∧ Sliver holes a b) → outcome = .error .assertion)

/-- A round in which no sliver starts leaves the rest to the next one. -/
theorem Fills.round {l' : Manager} {m : Nat} {outcome : Outcome Manager}
    (next : Fills holes l' m outcome) (lt : min < m) (alike : List.Forall₂ Alike l.regions l'.regions)
    (later : ∀ a b, min ≤ a → Sliver holes a b → m ≤ a) : Fills holes l min outcome := by
  constructor
  · intro none
    obtain ⟨l'', ran, stocked, alike'⟩ := next.1 fun a b low => none a b (by omega)
    exact ⟨l'', ran, stocked, forall₂_alike_trans alike alike'⟩
  · rintro ⟨a, b, low, sliver⟩
    exact next.2 ⟨a, b, later a b low sliver, sliver⟩

/-- The loop ends at the limit. -/
theorem fills_limit {m : Nat} (past : 0xffffffff ≤ m)
    (h : Stocked l.mem l.regions (cellsBelow holes l.regions m)) : Fills holes l m (pure l) := by
  constructor
  · exact fun _ => ⟨l, rfl, cellsBelow_limit past ▸ h, forall₂_alike_refl _⟩
  · rintro ⟨a, b, low, sliver⟩
    have := (sliver.usable a (le_refl _) sliver.lt).2.1
    omega

theorem addLoop_spec (fuel : Nat) (sensible : Sensible holes)
    (h : Stocked l.mem l.regions (cellsBelow holes l.regions min)) (edge : Edge holes min)
    (below : min < 0xffffffff) (enough : 0xffffffff < min + fuel) :
    Fills holes l min (addLoop holes fuel l min) := by
  induction fuel generalizing l min with
  | zero => omega
  | succ fuel ih =>
      have first := edge.1
      rcases skip_spec holes min 0xffffffff below with
        ⟨m, retry, hole, mem, low, lt, same⟩ | ⟨m, found, lt, le, ends, clear⟩
      · obtain ⟨edge', cells, taken⟩ := retry_spec l.regions edge mem low lt same
        rw [← cells] at h
        have later : ∀ a b, min ≤ a → Sliver holes a b → m ≤ a := by
          intro a b le sliver
          by_contra near
          exact taken a le (by omega) (sliver.usable a (le_refl _) sliver.lt)
        rw [addLoop]
        simp only [retry]
        split
        · rename_i goes
          exact (ih h edge' goes (by omega)).round lt (forall₂_alike_refl _) later
        · rename_i ends
          exact (fills_limit (not_lt.mp ends) h).round lt (forall₂_alike_refl _) later
      · obtain ⟨high, usable, start, finish⟩ := stretch_spec sensible edge lt le ends clear
        have added := addStretch_spec h first high lt le usable start
        rw [addLoop]
        simp only [found]
        by_cases narrow : m < (min + 7) / 8 * 8
        · have sliver : Sliver holes min m := ⟨lt, usable, start, finish, narrow⟩
          rw [if_pos narrow] at added
          rw [added]
          exact ⟨fun none => absurd sliver (none min m (le_refl _)), fun _ => rfl⟩
        · rw [if_neg narrow] at added
          obtain ⟨l', done, stocked, alike⟩ := added
          have later : ∀ a b, min ≤ a → Sliver holes a b → m ≤ a := by
            intro a b low sliver
            by_contra near
            obtain ⟨rfl, rfl⟩ := sliver.eq_stretch low (by omega) usable finish
            exact narrow sliver.narrow
          rw [done]
          change Fills holes l min (if m < 0xffffffff then addLoop holes fuel l' m else pure l')
          split
          · rename_i goes
            exact (ih stocked ⟨by omega, .inr finish⟩ goes (by omega)).round lt alike later
          · rename_i stops
            exact (fills_limit (not_lt.mp stops) stocked).round lt alike later

/-! ### The heap that the kernel starts with -/

/-- The memory that the heap of the kernel gets: the usable cells from 1 MB to 16 MB. -/
def heapMemory (holes : List Hole) : Set Nat :=
  {x | 0x100000 ≤ x ∧ x < userMemStart ∧ ∀ y, y / 8 = x / 8 → Usable holes y}

/-- The three regions are set up, and the loop starts. -/
theorem addRegions_spec (mem : Mem) (i : BootInfo) :
    ∃ l, mbUtilLmm mem i = addLoop i.holes (2 ^ 32) l 0x500 ∧ Stocked l.mem l.regions ∅ ∧
      span l.regions = Set.Ico 0 (2 ^ 32 - 8) := by
  have none : span (init mem).regions = ∅ := by
    ext x
    simp [span, init]
  have outside : ∀ {l : Manager} {a b lo hi : Nat}, span l.regions = Set.Ico a b →
      hi ≤ a ∨ b ≤ lo → ∀ r ∈ l.regions, hi ≤ r.min ∨ r.max ≤ lo := by
    intro l a b lo hi same apart r mem
    have first : r.min ∈ span l.regions := ⟨r, mem, le_refl _, r.min_lt⟩
    have last : r.max - 1 ∈ span l.regions := by
      have := r.min_lt
      exact ⟨r, mem, by omega, by omega⟩
    rw [same] at first last
    have := first.1
    have := last.2
    omega
  obtain ⟨l₁, done₁, stocked₁, span₁⟩ := addRegion_spec 0 0x100000 (lmmf1MB ||| lmmf16MB)
    lmmPri1MB (stocked_init mem) (by decide) (by decide) fun r memr => absurd memr List.not_mem_nil
  have span₁' : span l₁.regions = Set.Ico 0 0x100000 := by
    rw [span₁, none, Set.empty_union]
    rfl
  obtain ⟨l₂, done₂, stocked₂, span₂⟩ := addRegion_spec 0x100000 0xf00000 lmmf16MB
    lmmPri16MB stocked₁ (by decide) (by decide)
    (outside span₁' (.inr (by decide)))
  have span₂' : span l₂.regions = Set.Ico 0 0x1000000 := by
    rw [span₂, span₁']
    exact Set.Ico_union_Ico_eq_Ico (b := 0x100000) (by decide) (by decide)
  obtain ⟨l₃, done₃, stocked₃, span₃⟩ := addRegion_spec 0x1000000 0xfeffffff 0
    lmmPriHigh stocked₂ (by decide) (by decide)
    (outside span₂' (.inr (by decide)))
  refine ⟨l₃, ?_, stocked₃, ?_⟩
  · simp only [mbUtilLmm, done₁, done₂, done₃, bind, Except.bind]
  · rw [span₃, span₂']
    exact Set.Ico_union_Ico_eq_Ico (b := 0x1000000) (by decide) (by decide)

/-- What is left of the usable cells is the memory of the heap. -/
theorem heapMemory_eq (spans : span regions = Set.Ico 0 (2 ^ 32 - 8)) :
    (usableCells holes regions \ Set.Ico (alignUp 0) (alignUp (0 + 0x100000))) \
        Set.Ico (alignUp userMemStart) (alignUp (userMemStart + (2 ^ 32 - 8 - userMemStart))) =
      heapMemory holes := by
  have low : Set.Ico (alignUp 0) (alignUp (0 + 0x100000)) = Set.Ico 0 0x100000 := rfl
  have high : Set.Ico (alignUp userMemStart)
      (alignUp (userMemStart + (2 ^ 32 - 8 - userMemStart))) = Set.Ico 0x1000000 (2 ^ 32 - 8) := rfl
  ext x
  rw [low, high, heapMemory, usableCells, spans, userMemStart]
  constructor
  · rintro ⟨⟨⟨⟨-, last⟩, whole⟩, out⟩, out'⟩
    refine ⟨?_, ?_, whole⟩
    · by_contra below
      exact out ⟨Nat.zero_le x, by omega⟩
    · by_contra above
      exact out' ⟨by omega, last⟩
  · rintro ⟨above, below, whole⟩
    refine ⟨⟨⟨⟨Nat.zero_le x, by omega⟩, whole⟩, ?_⟩, ?_⟩
    · intro inside
      have := inside.2
      omega
    · intro inside
      have := inside.1
      omega

/-- A heap with nothing out is sound when the manager has all its memory. -/
theorem sound_booted {W : Set Nat} (bounds : ∀ x ∈ W, 8 ≤ x ∧ x < 2 ^ 31)
    (stocked : Stocked l.mem l.regions W) : Sound W l.regions (booted l) := by
  have none : W \ out (booted l).live = W := by
    have empty : out (booted l).live = ∅ := by
      ext x
      simp [out, booted]
    rw [empty, Set.sdiff_empty]
  refine ⟨rfl, rfl, bounds, none.symm ▸ stocked, forall₂_alike_refl _, .nil, ?_⟩
  intro b mem
  exact absurd mem List.not_mem_nil

/-- The boot information says how much memory there is, and that it is more than 16 MB. -/
def BootInfo.Enough (i : BootInfo) : Prop :=
  i.has multibootMemory = true ∧ i.physFrames > userMemStart / pageSize

theorem mbEntry_of_enough (mem : Mem) {i : BootInfo} (enough : i.Enough) :
    mbEntry mem i = (do
      let l ← mbUtilLmm mem i
      let l ← removeFree l 0 0x100000
      removeFree l userMemStart (2 ^ 32 - 8 - userMemStart)) := by
  rw [mbEntry, check_of enough.1, check_of enough.2]
  rfl

theorem mbEntry_of_not_enough (mem : Mem) {i : BootInfo} (few : ¬i.Enough) :
    mbEntry mem i = .error .assertion := by
  rw [mbEntry]
  by_cases flag : i.has multibootMemory = true
  · have frames : ¬i.physFrames > userMemStart / pageSize := fun more => few ⟨flag, more⟩
    rw [check_of flag, check, if_neg frames]
    rfl
  · rw [check, if_neg flag]
    rfl

/-- With more than 16 MB and without a sliver the kernel boots, and its heap is sound and has just
the usable cells from 1 MB to 16 MB; otherwise an assertion fails at boot. -/
theorem mbEntry_cases (mem : Mem) (i : BootInfo) (sensible : Sensible i.holes) :
    ((i.Enough ∧ ∀ a b, 0x500 ≤ a → ¬Sliver i.holes a b) ∧ ∃ l, mbEntry mem i = .ok l ∧
      Sound (heapMemory i.holes) l.regions (booted l)) ∨
    (¬i.Enough ∨ ∃ a b, 0x500 ≤ a ∧ Sliver i.holes a b) ∧
      mbEntry mem i = .error .assertion := by
  by_cases enough : i.Enough
  swap
  · exact .inr ⟨.inl enough, mbEntry_of_not_enough mem enough⟩
  have checks := mbEntry_of_enough mem enough
  obtain ⟨l, starts, stocked, spans⟩ := addRegions_spec mem i
  have none : cellsBelow i.holes l.regions 0x500 = ∅ := by
    refine Set.eq_empty_of_forall_notMem ?_
    rintro x ⟨cells, ends⟩
    have := (cells.2 (x / 8 * 8) (by omega)).1
    omega
  have edge : Edge i.holes 0x500 := ⟨le_refl _, .inl fun usable => absurd usable.1 (by decide)⟩
  obtain ⟨good, bad⟩ := addLoop_spec (2 ^ 32) sensible (none.symm ▸ stocked) edge
    (by decide) (by decide)
  by_cases sliver : ∃ a b, 0x500 ≤ a ∧ Sliver i.holes a b
  · right
    refine ⟨.inr sliver, ?_⟩
    rw [checks, starts, bad sliver]
    rfl
  · left
    have clear : ∀ a b, 0x500 ≤ a → ¬Sliver i.holes a b := fun a b above hit =>
      sliver ⟨a, b, above, hit⟩
    obtain ⟨l₁, done₁, stocked₁, alike₁⟩ := good clear
    obtain ⟨l₂, done₂, stocked₂, alike₂⟩ := removeFree_spec 0 0x100000 stocked₁ (by decide) (by decide)
    obtain ⟨l₃, done₃, stocked₃, alike₃⟩ := removeFree_spec userMemStart
      (2 ^ 32 - 8 - userMemStart) stocked₂ (by decide) (by decide)
    rw [heapMemory_eq ((span_alike alike₁).trans spans)] at stocked₃
    refine ⟨⟨enough, clear⟩, l₃, ?_, sound_booted ?_ stocked₃⟩
    · simp only [checks, starts, done₁, done₂, done₃, bind, Except.bind]
    · rintro x ⟨above, below, -⟩
      rw [userMemStart] at below
      omega

/-- A machine with 64 MB and a kernel of 512 KB. -/
def machine : BootInfo :=
  { flags := multibootMemory, memLower := 639, memUpper := 64512, cmdline := 0, cmdlineLength := 0, modsAddr := 0,
    modules := [], kernelStart := 0x100000, kimgStart := 0x100000, kernelEnd := 0x180000 }

theorem usable_machine :
    Usable machine.holes x ↔ 0x500 ≤ x ∧ x < 0x9fc00 ∨ 0x180000 ≤ x ∧ x < 0x4000000 := by
  have holes : machine.holes = [(0x9fc00, 0x100000), (0x4000000, 0xffffffff), (0x100000, 0x180000),
      (0x100000, 0x180000), (0, 0)] := by decide
  simp [Usable, Clear, holes]
  omega

theorem mbEntry_cases_machine : ∃ l, mbEntry (fun _ => 0) machine = .ok l ∧
    Sound (heapMemory machine.holes) l.regions (booted l) := by
  have sensible : Sensible machine.holes := by
    constructor
    · decide
    · exact ⟨(0x4000000, 0xffffffff), by decide⟩
  rcases mbEntry_cases (fun _ => 0) machine sensible with
    ⟨-, boots⟩ | ⟨few | ⟨a, b, -, sliver⟩, -⟩
  · exact boots
  · exact absurd ⟨by decide, by decide⟩ few
  · have lt := sliver.lt
    have first := usable_machine.mp (sliver.usable a (le_refl a) lt)
    have last := usable_machine.mp (sliver.usable (b - 1) (by omega) (by omega))
    have start := mt usable_machine.mpr sliver.start
    have finish := mt usable_machine.mpr sliver.finish
    have narrow := sliver.narrow
    omega

/-- A guest kernel has the cells from its end to `USER_MEM_START`. -/
theorem hvGuestEntry_spec (mem : Mem) {maxframe : BitVec 32} {kernelEnd : Nat}
    (frames : (maxframe - 4 + 1).toInt > (userMemStart / pageSize : Nat)) (pos : 0 < kernelEnd)
    (le : kernelEnd + 7 ≤ userMemStart) :
    ∃ l, hvGuestEntry mem maxframe kernelEnd = .ok l ∧
      Sound (Set.Ico (alignUp kernelEnd) userMemStart) l.regions (booted l) := by
  rw [userMemStart] at le
  have none : span (init mem).regions = ∅ := by
    ext x
    simp [span, init]
  obtain ⟨l₁, done₁, stocked₁, span₁⟩ := addRegion_spec 0 userMemStart 0 1 (stocked_init mem)
    (by decide) (by decide) fun r memr => absurd memr List.not_mem_nil
  have up := alignUp_eq (n := kernelEnd) (by omega)
  have finish : userMemStart = alignDown (kernelEnd + (userMemStart - kernelEnd)) := by
    rw [userMemStart, alignDown]
    omega
  have top : alignDown (0 + userMemStart) = userMemStart := rfl
  obtain ⟨l₂, done₂, stocked₂, alike₂⟩ := addFree_spec (alignUp kernelEnd) userMemStart
    stocked₁ rfl finish (by rw [userMemStart]; omega)
    (by rw [userMemStart]; omega) (by omega) fun x _ => Set.notMem_empty x
  have whole : ∅ ∪ (Set.Ico (alignUp kernelEnd) userMemStart ∩ span l₁.regions) =
      Set.Ico (alignUp kernelEnd) userMemStart := by
    rw [span₁, none, Set.empty_union, Set.empty_union, top, Set.inter_eq_left]
    exact Set.Ico_subset_Ico_left (Nat.zero_le _)
  rw [whole] at stocked₂
  refine ⟨l₂, ?_, sound_booted ?_ stocked₂⟩
  · simp only [hvGuestEntry, check_of frames, done₁, done₂, bind, Except.bind]
  · rintro x ⟨above, below⟩
    rw [userMemStart] at below
    omega

/-- The heap of a guest kernel that ends at 2 MB, in `GUEST_MEM_SIZE` bytes. -/
def guestHeap : State :=
  match hvGuestEntry (fun _ => 0) 0x13ff 0x200000 with
  | .ok l => booted l
  | .error _ => booted (init fun _ => 0)

theorem sound_guestHeap :
    Sound (Set.Ico 0x200000 userMemStart) guestHeap.heap.lmm.regions guestHeap := by
  obtain ⟨l, ran, sound⟩ := hvGuestEntry_spec (fun _ => 0)
    (show (0x13ff - 4 + 1 : BitVec 32).toInt > (userMemStart / pageSize : Nat) by decide)
    (show 0 < 0x200000 by decide) (by decide)
  have same : guestHeap = booted l := by
    rw [guestHeap, ran]
  rw [same]
  exact sound

end OsKernel.Malloc
