/-
The invariant of the heap: what is not out is free.

`Sound W` says that the bytes of `W` are either free or in the cells of one block that is out,
and that each block with a header can be given back. It is kept when a block is given
(`Sound.given`), when one is given back (`Sound.returned`), and by what the callers write in
their own blocks (`Sound.written`).
-/

import OsKernel.Malloc.Machine
import Mathlib.Order.CompletePartialOrder

namespace OsKernel.Malloc

open OsKernel.Words OsKernel.Lmm OsKernel.Range

variable {W S : Set Nat} {regions : List Region} {m m' : Mem} {b b' : Block} {live : List Block}

/-- The bytes of the blocks that are out. -/
def out (live : List Block) : Set Nat := {x | ∃ b ∈ live, x ∈ block b.cells}

/-- Two blocks share no cell. -/
def Block.Apart (b b' : Block) : Prop := Disjoint (block b.cells) (block b'.cells)

instance : Std.Symm Block.Apart := ⟨fun _ _ apart => Disjoint.symm apart⟩

/-- A block that is out lies in one region, and its header says how long it is. -/
structure Lies (W : Set Nat) (regions : List Region) (m : Mem) (b : Block) : Prop where
  pos : 0 < b.size
  fits : b.addr % 8 + b.size + 7 < 2 ^ 32
  owned : block b.cells ⊆ W
  region : ∃ reg ∈ regions, block b.cells ⊆ reg.bytes
  header : b.headed = true → 4 ≤ b.size ∧ word m b.addr = b.size

/-- The bytes of `W` are free or out, the regions are the given ones, and nothing went wrong. -/
structure Sound (W : Set Nat) (regions : List Region) (s : State) : Prop where
  running : s.stopped = none
  idle : s.heap.inUse = false
  bounds : ∀ x ∈ W, 8 ≤ x ∧ x < 2 ^ 31
  stocked : Stocked s.heap.mem s.heap.lmm.regions (W \ out s.live)
  alike : List.Forall₂ Alike regions s.heap.lmm.regions
  apart : s.live.Pairwise Block.Apart
  lies : ∀ b ∈ s.live, Lies W regions s.heap.mem b

theorem out_cons (b : Block) (live : List Block) : out (b :: live) = block b.cells ∪ out live := by
  ext x
  simp [out]

theorem Stocked.congr {regions : List Region} (h : Stocked m regions S)
    (same : ∀ x ∈ S, m' x = m x) : Stocked m' regions S :=
  ⟨fun reg mem => (h.holds reg mem).congr fun x inside => same x inside.1, h.covered, h.apart⟩

/-! ### Blocks -/

theorem Lies.cells_eq (h : Lies W regions m b) :
    b.cells = ⟨b.addr / 8 * 8, (b.addr % 8 + b.size + 7) / 8 * 8⟩ := by
  rw [Block.cells, cellsOf, alignDown, alignUp_eq h.fits]

/-- A block lies in its cells. -/
theorem Lies.mem_cells (h : Lies W regions m b) {x : Nat} (low : b.addr ≤ x)
    (high : x < b.addr + b.size) : x ∈ block b.cells := by
  rw [h.cells_eq, block]
  constructor
  · simp only
    omega
  · simp only [stop]
    omega

theorem Block.addr_le_pointer (b : Block) : b.addr ≤ b.pointer ∧ b.pointer ≤ b.addr + 4 := by
  rw [Block.pointer]
  split <;> omega

theorem Lies.payload_subset (h : Lies W regions m b) : b.payload ⊆ block b.cells := fun _ mem =>
  h.mem_cells (b.addr_le_pointer.1.trans mem.1) mem.2

/-- What is not written to stays. -/
theorem Lies.congr (h : Lies W regions m b) (same : ∀ x ∈ block b.cells, m' x = m x) :
    Lies W regions m' b := by
  refine ⟨h.pos, h.fits, h.owned, h.region, fun headed => ?_⟩
  obtain ⟨four, header⟩ := h.header headed
  refine ⟨four, (word_congr fun x inside => same x (h.mem_cells inside.1 ?_)).trans header⟩
  have := inside.2
  omega

/-- No two blocks that are out have one key. -/
theorem Sound.key_unique {s : State} (h : Sound W regions s) (mem : b ∈ s.live) (mem' : b' ∈ s.live)
    (same : b.key = b'.key) : b = b' := by
  by_contra ne
  simp only [Block.key, Block.pointer, Prod.mk.injEq] at same
  have addr : b.addr = b'.addr := by
    rw [same.1] at same
    have := same.2
    split at this <;> omega
  have lies := h.lies b mem
  have lies' := h.lies b' mem'
  have pos := lies.pos
  have pos' := lies'.pos
  have apart := h.apart.forall mem mem' ne
  exact Set.disjoint_left.mp apart (lies.mem_cells (le_refl _) (by omega))
    (lies'.mem_cells addr.ge (by omega))

/-- The blocks that are not given back. -/
theorem Sound.mem_filter {s : State} (h : Sound W regions s) (mem : b ∈ s.live) (b' : Block) :
    b' ∈ s.live.filter (·.key ≠ b.key) ↔ b' ∈ s.live ∧ b' ≠ b := by
  rw [List.mem_filter, decide_eq_true_eq]
  constructor
  · rintro ⟨mem', differ⟩
    refine ⟨mem', ?_⟩
    rintro rfl
    exact differ rfl
  · rintro ⟨mem', ne⟩
    exact ⟨mem', fun same => ne (h.key_unique mem' mem same)⟩

/-! ### What keeps the invariant -/

variable {s : State} {l' : Manager}

/-- A block is given: its cells were free, and only free bytes were written. -/
theorem Sound.given (h : Sound W regions s)
    (stocked : Stocked l'.mem l'.regions ((W \ out s.live) \ block b.cells))
    (alike : List.Forall₂ Alike s.heap.lmm.regions l'.regions)
    (frame : ∀ x, x ∉ W \ out s.live → l'.mem x = s.heap.mem x)
    (free : block b.cells ⊆ W \ out s.live)
    (region : ∃ reg ∈ s.heap.lmm.regions, block b.cells ⊆ reg.bytes)
    (wrote : ∀ x, x ∉ block b.cells → m' x = l'.mem x) (pos : 0 < b.size)
    (fits : b.addr % 8 + b.size + 7 < 2 ^ 32)
    (header : b.headed = true → 4 ≤ b.size ∧ word m' b.addr = b.size) :
    Sound W regions ⟨⟨⟨m', l'.regions⟩, false⟩, b :: s.live, none⟩ := by
  have kept : ∀ x, x ∉ W \ out s.live → m' x = s.heap.mem x := fun x notin =>
    (wrote x fun inside => notin (free inside)).trans (frame x notin)
  have new : ∀ b' ∈ s.live, Disjoint (block b.cells) (block b'.cells) := by
    intro b' mem
    refine Set.disjoint_left.mpr fun x inside inside' => (free inside).2 ⟨b', mem, inside'⟩
  refine ⟨rfl, rfl, h.bounds, ?_, forall₂_alike_trans h.alike alike,
    List.pairwise_cons.mpr ⟨new, h.apart⟩, ?_⟩
  · have rest : W \ out (b :: s.live) = (W \ out s.live) \ block b.cells := by
      rw [out_cons]
      ext x
      simp only [Set.mem_sdiff, Set.mem_union]
      tauto
    change Stocked m' l'.regions (W \ out (b :: s.live))
    rw [rest]
    exact Stocked.congr stocked fun x inside => wrote x inside.2
  · intro b' mem
    rcases List.mem_cons.mp mem with rfl | mem
    · obtain ⟨reg, memr, within⟩ := region
      obtain ⟨reg', memr', like⟩ := exists_alike (forall₂_alike_symm h.alike) memr
      exact ⟨pos, fits, fun x inside => (free inside).1, ⟨reg', memr', like.bytes ▸ within⟩, header⟩
    · exact (h.lies b' mem).congr fun x inside => kept x fun hit => hit.2 ⟨b', mem, inside⟩

/-- A block is given back: its cells are free again, and nothing else was written. -/
theorem Sound.returned (h : Sound W regions s) (mem : b ∈ s.live)
    (stocked : Stocked l'.mem l'.regions (W \ out s.live ∪ block b.cells))
    (alike : List.Forall₂ Alike s.heap.lmm.regions l'.regions)
    (frame : ∀ x, x ∉ W \ out s.live ∪ block b.cells → l'.mem x = s.heap.mem x) :
    Sound W regions ⟨⟨l', false⟩, s.live.filter (·.key ≠ b.key), none⟩ := by
  have others := h.mem_filter mem
  have away : ∀ b' ∈ s.live.filter (·.key ≠ b.key), ∀ x ∈ block b'.cells, x ∉ block b.cells := by
    intro b' mem' x inside hit
    have differ := (others b').mp mem'
    exact Set.disjoint_left.mp (h.apart.forall differ.1 mem differ.2) inside hit
  refine ⟨rfl, rfl, h.bounds, ?_, forall₂_alike_trans h.alike alike, h.apart.filter _, ?_⟩
  · have rest : W \ out (s.live.filter (·.key ≠ b.key)) = W \ out s.live ∪ block b.cells := by
      ext x
      constructor
      · rintro ⟨owned, free⟩
        by_cases hit : x ∈ block b.cells
        · exact .inr hit
        · refine .inl ⟨owned, ?_⟩
          rintro ⟨b', mem', inside⟩
          refine free ⟨b', (others b').mpr ⟨mem', ?_⟩, inside⟩
          rintro rfl
          exact hit inside
      · rintro (⟨owned, free⟩ | hit)
        · refine ⟨owned, ?_⟩
          rintro ⟨b', mem', inside⟩
          exact free ⟨b', ((others b').mp mem').1, inside⟩
        · refine ⟨(h.lies b mem).owned hit, ?_⟩
          rintro ⟨b', mem', inside⟩
          exact away b' mem' x inside hit
    change Stocked l'.mem l'.regions (W \ out (s.live.filter (·.key ≠ b.key)))
    rw [rest]
    exact stocked
  · intro b' mem'
    refine (h.lies b' ((others b').mp mem').1).congr fun x inside => frame x ?_
    rintro (free | hit)
    · exact free.2 ⟨b', ((others b').mp mem').1, inside⟩
    · exact away b' mem' x inside hit

/-- The callers write in their own blocks. -/
theorem Sound.written (h : Sound W regions s) (mem : b ∈ s.live)
    (frame : ∀ x, x ∉ b.payload → m' x = s.heap.mem x) :
    Sound W regions ⟨s.heap.setMem m', s.live, s.stopped⟩ := by
  have own := (h.lies b mem).payload_subset
  refine ⟨h.running, h.idle, h.bounds, ?_, h.alike, h.apart, ?_⟩
  · exact Stocked.congr h.stocked fun x free => frame x fun hit => free.2 ⟨b, mem, own hit⟩
  · intro b' mem'
    by_cases same : b' = b
    · subst same
      have lies := h.lies b' mem'
      refine ⟨lies.pos, lies.fits, lies.owned, lies.region, fun headed => ?_⟩
      obtain ⟨four, header⟩ := lies.header headed
      refine ⟨four, (word_congr fun x inside => frame x fun hit => ?_).trans header⟩
      have := inside.2
      have := hit.1
      simp only [Block.pointer, headed, if_true] at this
      omega
    · refine (h.lies b' mem').congr fun x inside => frame x fun hit => ?_
      exact Set.disjoint_left.mp (h.apart.forall mem' mem same) inside (own hit)

end OsKernel.Malloc
