/-
The free list of a region in memory.

`Seg` says that the nodes of some ranges follow each other in memory, from one pointer to
another, and `Laid` that they are a region's free list: the ranges are spaced, so that no two
free blocks touch, aligned, and within the region. A write that misses the nodes leaves the
list alone (`Seg.congr`); `*nodep = p` redirects the last node before the place
(`Seg.assign`).
-/

import OsKernel.Lib.Ranges
import OsKernel.Lmm.Machine

namespace OsKernel.Lmm

open OsKernel.Words OsKernel.Range

/-! ### Checks -/

@[simp] theorem check_of {p : Prop} [Decidable p] (h : p) : check p = .ok () := if_pos h

/-! ### Nodes that follow each other -/

/-- From the pointer `p` on lie the nodes of the ranges, and the last one points to `q`. -/
def Seg (m : Mem) : Nat → List Range → Nat → Prop
  | p, [], q => p = q
  | p, r :: l, q =>
      p = r.start ∧ r.start ≠ 0 ∧ word m (r.start + 4) = r.size ∧ Seg m (word m r.start) l q

variable {m m' : Mem} {p q : Nat} {l l' before after : List Range} {r : Range}

theorem seg_append : Seg m p (l ++ l') q ↔ ∃ t, Seg m p l t ∧ Seg m t l' q := by
  induction l generalizing p with
  | nil =>
      constructor
      · intro h
        exact ⟨p, rfl, h⟩
      · rintro ⟨t, rfl, h⟩
        exact h
  | cons r l ih =>
      simp only [List.cons_append, Seg, ih]
      constructor
      · rintro ⟨start, null, size, t, left, right⟩
        exact ⟨t, ⟨start, null, size, left⟩, right⟩
      · rintro ⟨t, ⟨start, null, size, left⟩, right⟩
        exact ⟨start, null, size, t, left, right⟩

theorem seg_singleton : Seg m p [r] q ↔
    p = r.start ∧ r.start ≠ 0 ∧ word m (r.start + 4) = r.size ∧ word m r.start = q := .rfl

/-- Only the nodes matter. -/
theorem Seg.congr (h : Seg m p l q)
    (same : ∀ r ∈ l, ∀ x ∈ Set.Ico r.start (r.start + 8), m' x = m x) : Seg m' p l q := by
  induction l generalizing p with
  | nil => exact h
  | cons r l ih =>
      obtain ⟨start, null, size, rest⟩ := h
      have head := same r List.mem_cons_self
      have next : word m' r.start = word m r.start :=
        word_congr fun x inside => head x ⟨inside.1, by have := inside.2; omega⟩
      have sized : word m' (r.start + 4) = word m (r.start + 4) := by
        apply word_congr
        intro x inside
        apply head
        have := inside.1
        have := inside.2
        exact ⟨by omega, by omega⟩
      refine ⟨start, null, sized.trans size, ?_⟩
      rw [next]
      exact ih rest fun r' mem => same r' (List.mem_cons_of_mem r mem)

/-- The place behind some nodes. -/
def placeAfter (before : List Range) : Option Nat := before.getLast?.map start

@[simp] theorem placeAfter_nil : placeAfter [] = none := rfl

@[simp] theorem placeAfter_concat (before : List Range) (r : Range) :
    placeAfter (before ++ [r]) = some r.start := by
  simp [placeAfter]

/-- The nodes of different ranges do not overlap. -/
def Parted (l : List Range) : Prop := l.Pairwise fun r r' => r.start + 8 ≤ r'.start

variable {s : At}

theorem Seg.deref (h : Seg s.mem s.reg.nodes before p) : s.deref (placeAfter before) = p := by
  induction before using List.reverseRecOn with
  | nil => exact h
  | append_singleton before r _ =>
      obtain ⟨t, -, last⟩ := seg_append.mp h
      rw [placeAfter_concat]
      exact (seg_singleton.mp last).2.2.2

@[simp] theorem assign_reg_min (nodep : Option Nat) : (s.assign nodep p).reg.min = s.reg.min := by
  cases nodep <;> rfl

@[simp] theorem assign_reg_max (nodep : Option Nat) : (s.assign nodep p).reg.max = s.reg.max := by
  cases nodep <;> rfl

/-- `*nodep = q` writes to the last node before the place, if to memory at all. -/
theorem assign_mem {x : Nat} (out : ∀ r ∈ before, x ∉ Set.Ico r.start (r.start + 8)) :
    (s.assign (placeAfter before) q).mem x = s.mem x := by
  induction before using List.reverseRecOn with
  | nil => rfl
  | append_singleton before r _ =>
      rw [placeAfter_concat]
      apply putWord_of_notMem
      intro inside
      have := inside.2
      exact out r (by simp) ⟨inside.1, by omega⟩

/-- `*nodep = q` makes the nodes before the place lead to `q`. -/
theorem Seg.assign (h : Seg s.mem s.reg.nodes before p) (parted : Parted before)
    (lt : q < 2 ^ 32) :
    Seg (s.assign (placeAfter before) q).mem (s.assign (placeAfter before) q).reg.nodes before q := by
  induction before using List.reverseRecOn with
  | nil => exact rfl
  | append_singleton before r _ =>
      obtain ⟨t, left, last⟩ := seg_append.mp h
      obtain ⟨start, null, size, -⟩ := seg_singleton.mp last
      have apart := (List.pairwise_append.mp parted).2.2
      rw [placeAfter_concat]
      refine seg_append.mpr ⟨t, left.congr ?_, seg_singleton.mpr ⟨start, null, ?_, ?_⟩⟩
      · intro r' mem x inside
        apply putWord_of_notMem
        intro hit
        have := apart r' mem r (by simp)
        have := inside.2
        have := hit.1
        omega
      · exact (word_putWord_of_apart (.inl (le_refl _))).trans size
      · exact word_putWord lt

/-! ### The free list of a region -/

/-- A region as it is but for its list and its counter. -/
structure Alike (reg reg' : Region) : Prop where
  min : reg'.min = reg.min
  max : reg'.max = reg.max
  flags : reg'.flags = reg.flags
  pri : reg'.pri = reg.pri

theorem Alike.refl (reg : Region) : Alike reg reg := ⟨rfl, rfl, rfl, rfl⟩

theorem Alike.trans {reg reg' reg'' : Region} (h : Alike reg reg') (h' : Alike reg' reg'') :
    Alike reg reg'' :=
  ⟨h'.min.trans h.min, h'.max.trans h.max, h'.flags.trans h.flags, h'.pri.trans h.pri⟩

theorem alike_assign (s : At) (nodep : Option Nat) (p : Nat) :
    Alike s.reg (s.assign nodep p).reg := by
  cases nodep <;> exact ⟨rfl, rfl, rfl, rfl⟩

/-- The ranges are those of free blocks of the region. -/
structure Fits (reg : Region) (l : List Range) : Prop where
  spaced : Spaced l
  aligned : ∀ r ∈ l, r.start % 8 = 0 ∧ r.size % 8 = 0
  within : ∀ r ∈ l, reg.min ≤ r.start ∧ r.stop ≤ reg.max

/-- The ranges are the free list of the region. -/
structure Laid (m : Mem) (reg : Region) (l : List Range) : Prop extends Fits reg l where
  chain : Seg m reg.nodes l 0

namespace Fits

variable {reg reg' : Region}

theorem of_alike (h : Fits reg l) (alike : Alike reg reg') : Fits reg' l :=
  ⟨h.spaced, h.aligned, fun r mem => by rw [alike.min, alike.max]; exact h.within r mem⟩

theorem eight_le (h : Fits reg l) (mem : r ∈ l) : 8 ≤ r.size := by
  have pos := h.spaced.nonempty r mem
  have := (h.aligned r mem).2
  omega

theorem parted (h : Fits reg l) : Parted l := by
  refine h.spaced.apart.imp_of_mem fun {r r'} mem _ lt => ?_
  have := h.eight_le mem
  simp only [stop] at lt
  omega

theorem append_left (h : Fits reg (l ++ l')) : Fits reg l :=
  ⟨(spaced_append.mp h.spaced).1, fun r mem => h.aligned r (List.mem_append_left l' mem),
    fun r mem => h.within r (List.mem_append_left l' mem)⟩

/-- The node of a free block lies in it. -/
theorem node_mem_cover (h : Fits reg l) (mem : r ∈ l) {x : Nat}
    (inside : x ∈ Set.Ico r.start (r.start + 8)) : x ∈ cover l := by
  have := h.eight_le mem
  have := inside.2
  exact ⟨r, mem, inside.1, by simp only [stop]; omega⟩

theorem total_le (h : Fits reg l) : total l ≤ reg.max - reg.min :=
  h.spaced.total_le reg.min_lt.le h.within

theorem length_lt (h : Fits reg l) : l.length < rounds := by
  have many := length_mul_le 8 fun r mem => h.eight_le mem
  have := h.total_le
  have := reg.max_lt
  simp only [rounds]
  omega

theorem cover_subset (h : Fits reg l) : cover l ⊆ Set.Ico reg.min reg.max := by
  rintro x ⟨r, mem, low, high⟩
  have := h.within r mem
  exact ⟨by omega, by omega⟩

end Fits

theorem Laid.congr {reg : Region} (h : Laid m reg l) (same : ∀ x ∈ cover l, m' x = m x) :
    Laid m' reg l :=
  ⟨h.toFits, h.chain.congr fun _ mem _ inside => same _ (h.node_mem_cover mem inside)⟩

theorem Laid.head {reg : Region} (h : Laid m reg l) :
    l = [] ∧ reg.nodes = 0 ∨ ∃ r rest, l = r :: rest ∧ reg.nodes = r.start ∧ r.start ≠ 0 := by
  cases l with
  | nil => exact .inl ⟨rfl, h.chain⟩
  | cons r rest => exact .inr ⟨r, rest, rfl, h.chain.1, h.chain.2.1⟩

/-- The first node lies in the region. -/
theorem Laid.first_node {reg : Region} (h : Laid m reg l) (some : reg.nodes ≠ 0) :
    reg.nodes % 8 = 0 ∧ reg.min ≤ reg.nodes ∧ reg.nodes + 8 ≤ reg.max := by
  rcases h.head with ⟨-, empty⟩ | ⟨r, rest, rfl, nodes, -⟩
  · exact absurd empty some
  · have within := h.within r List.mem_cons_self
    have eight := h.eight_le (r := r) List.mem_cons_self
    simp only [stop] at within
    rw [nodes]
    exact ⟨(h.aligned r List.mem_cons_self).1, within.1, by omega⟩

/-- Its `next` is the null pointer or a node of the region. -/
theorem Laid.next_lt {reg : Region} (h : Laid m reg l) (some : reg.nodes ≠ 0) :
    word m reg.nodes < reg.max := by
  rcases h.head with ⟨-, empty⟩ | ⟨r, rest, rfl, nodes, -⟩
  · exact absurd empty some
  · have chain := h.chain.2.2.2
    rw [nodes]
    cases rest with
    | nil =>
        have last : word m r.start = 0 := chain
        have := reg.min_lt
        omega
    | cons r' rest =>
        have next : word m r.start = r'.start := chain.1
        have within := (h.within r' (by simp)).2
        have eight := h.eight_le (r := r') (by simp)
        simp only [stop] at within
        omega

/-- What the functions that allocate assert of a region holds of its free list. -/
theorem Laid.sane {reg : Region} (h : Laid m reg l) (free : reg.free = total l) : reg.sane := by
  refine ⟨?_, free ▸ h.total_le⟩
  rcases h.head with ⟨rfl, nodes⟩ | ⟨r, rest, rfl, nodes, -⟩
  · exact .inl ⟨nodes, free⟩
  · exact .inr (nodes ▸ (h.within r List.mem_cons_self).1)

/-- What they assert of a node. -/
theorem Laid.sane_node {s : At} (h : Laid s.mem s.reg (before ++ r :: after)) :
    s.sane r.start := by
  have mem : r ∈ before ++ r :: after := by simp
  obtain ⟨t, -, -, null, size, rest⟩ := seg_append.mp h.chain
  have aligned := h.aligned r mem
  have within := h.within r mem
  have eight := h.eight_le mem
  simp only [stop] at within
  refine ⟨aligned.1, ?_, ?_, by omega⟩
  · rw [At.size, size]
    exact aligned.2
  · cases after with
    | nil => exact .inl rest
    | cons r' after =>
        have apart := (List.pairwise_cons.mp (List.pairwise_append.mp h.parted).2.1).1
        have := apart r' List.mem_cons_self
        have next : s.next r.start = r'.start := rest.1
        exact .inr (by omega)

end OsKernel.Lmm
