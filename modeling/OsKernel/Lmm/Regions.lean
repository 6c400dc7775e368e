/-
The manager as a set of free bytes.

`Stocked` says that the free lists of the regions cover a set, each region its part of it, and
that the counters count it. The functions that allocate search the regions in order:
`eachRegion_spec` lifts what a search of one region does, and `alloc_spec` and `allocGen_spec`
say which address they give, the least one that meets the request in the first region that has
one, and that nothing but that block leaves the set.
-/

import OsKernel.Lmm.AllocGen

namespace OsKernel.Lmm

open OsKernel.Words OsKernel.Range

/-- The numbers of a range. -/
def block (r : Range) : Set Nat := Set.Ico r.start r.stop

/-- The addresses of a region. -/
def Region.bytes (reg : Region) : Set Nat := Set.Ico reg.min reg.max

/-- The free list of the region covers the set, and its counter counts it. -/
def Holds (m : Mem) (reg : Region) (S : Set Nat) : Prop :=
  ∃ l, Laid m reg l ∧ reg.free = total l ∧ cover l = S

/-- The free lists of the regions cover the set. -/
structure Stocked (m : Mem) (regions : List Region) (S : Set Nat) : Prop where
  holds : ∀ reg ∈ regions, Holds m reg (S ∩ reg.bytes)
  covered : ∀ x ∈ S, ∃ reg ∈ regions, x ∈ reg.bytes
  apart : regions.Pairwise fun reg reg' => reg.max ≤ reg'.min ∨ reg'.max ≤ reg.min

variable {m m' : Mem} {reg reg' : Region} {S S' : Set Nat}

theorem Alike.bytes (h : Alike reg reg') : reg'.bytes = reg.bytes := by
  rw [Region.bytes, h.min, h.max, Region.bytes]

namespace Holds

theorem sane (h : Holds m reg S) : reg.sane := by
  obtain ⟨l, laid, free, -⟩ := h
  exact laid.sane free

theorem congr (h : Holds m reg S) (same : ∀ x ∈ S, m' x = m x) : Holds m' reg S := by
  obtain ⟨l, laid, free, rfl⟩ := h
  exact ⟨l, laid.congr same, free, rfl⟩

/-- The null pointer is not free, and free bytes come in whole cells of eight. -/
theorem cells (h : Holds m reg S) {x : Nat} (mem : x ∈ S) :
    8 ≤ x ∧ x < 2 ^ 32 ∧ ∀ y, y / 8 = x / 8 → y ∈ S := by
  obtain ⟨l, laid, -, rfl⟩ := h
  obtain ⟨r, mem, low, high⟩ := mem
  have aligned := laid.aligned r mem
  have within := laid.within r mem
  have null : r.start ≠ 0 := by
    obtain ⟨before, after, rfl⟩ := List.append_of_mem mem
    exact laid.parts.2.1
  have bound := reg.max_lt
  simp only [stop] at high within
  refine ⟨by omega, by omega, fun y cell => ⟨r, mem, by omega, ?_⟩⟩
  simp only [stop]
  omega

/-- The list is determined by the set. -/
theorem nodes_unique (h : Holds m reg S) (h' : Holds m' reg' S) :
    reg.nodes = reg'.nodes ∧ reg.free = reg'.free := by
  obtain ⟨l, laid, free, rfl⟩ := h
  obtain ⟨l', laid', free', same⟩ := h'
  obtain rfl := laid.spaced.ext laid'.spaced same.symm
  refine ⟨?_, free.trans free'.symm⟩
  rcases laid.head with ⟨rfl, nodes⟩ | ⟨r, rest, rfl, nodes, -⟩
  · exact nodes.trans laid'.chain.symm
  · exact nodes.trans laid'.chain.1.symm

end Holds

/-- Other regions share no address with one of them. -/
theorem Stocked.apart_of_ne {left right : List Region}
    (apart : (left ++ reg :: right).Pairwise
      fun reg reg' => reg.max ≤ reg'.min ∨ reg'.max ≤ reg.min) {other : Region}
    (mem : other ∈ left ∨ other ∈ right) {x : Nat} (inside : x ∈ other.bytes) : x ∉ reg.bytes := by
  have parts := List.pairwise_append.mp apart
  have disjoint : other.max ≤ reg.min ∨ reg.max ≤ other.min := by
    rcases mem with mem | mem
    · exact parts.2.2 other mem reg List.mem_cons_self
    · exact ((List.pairwise_cons.mp parts.2.1).1 other mem).symm
  intro hit
  have := inside.1
  have := inside.2
  have := hit.1
  have := hit.2
  omega

/-- One region changes, and what is free outside it stays. -/
theorem Stocked.replace {left right : List Region} (h : Stocked m (left ++ reg :: right) S)
    (alike : Alike reg reg') (holds : Holds m' reg' (S' ∩ reg.bytes))
    (outside : ∀ x, x ∉ reg.bytes → (x ∈ S' ↔ x ∈ S))
    (frame : ∀ x, x ∉ reg.bytes → m' x = m x) : Stocked m' (left ++ reg' :: right) S' := by
  have others : ∀ other, other ∈ left ∨ other ∈ right → Holds m' other (S' ∩ other.bytes) := by
    intro other mem
    have away : ∀ x ∈ other.bytes, x ∉ reg.bytes := fun x =>
      Stocked.apart_of_ne (x := x) h.apart mem
    have same : S' ∩ other.bytes = S ∩ other.bytes := by
      ext x
      constructor
      · rintro ⟨free, inside⟩
        exact ⟨(outside x (away x inside)).mp free, inside⟩
      · rintro ⟨free, inside⟩
        exact ⟨(outside x (away x inside)).mpr free, inside⟩
    rw [same]
    refine (h.holds other ?_).congr fun x mem => frame x (away x mem.2)
    simp only [List.mem_append, List.mem_cons]
    tauto
  refine ⟨?_, ?_, ?_⟩
  · intro other mem
    rcases List.mem_append.mp mem with mem | mem
    · exact others other (.inl mem)
    · rcases List.mem_cons.mp mem with rfl | mem
      · rw [alike.bytes]
        exact holds
      · exact others other (.inr mem)
  · intro x free
    by_cases inside : x ∈ reg.bytes
    · exact ⟨reg', by simp, alike.bytes ▸ inside⟩
    · obtain ⟨other, mem, hit⟩ := h.covered x ((outside x inside).mp free)
      refine ⟨other, ?_, hit⟩
      simp only [List.mem_append, List.mem_cons] at mem ⊢
      rcases mem with mem | rfl | mem
      · exact .inl mem
      · exact absurd hit inside
      · exact .inr (.inr mem)
  · have parts := List.pairwise_append.mp h.apart
    have tail := List.pairwise_cons.mp parts.2.1
    refine List.pairwise_append.mpr ⟨parts.1, List.pairwise_cons.mpr ⟨?_, tail.2⟩, ?_⟩
    · intro other mem
      rw [alike.min, alike.max]
      exact tail.1 other mem
    · intro other mem other' mem'
      rcases List.mem_cons.mp mem' with rfl | mem'
      · rw [alike.min, alike.max]
        exact parts.2.2 other mem reg List.mem_cons_self
      · exact parts.2.2 other mem other' (List.mem_cons_of_mem reg mem')

/-! ### Searches -/

/-- In a region whose free bytes are `S`, the search gave the least address that suits. -/
structure Gives (suits : Set Nat → Nat → Prop) (chunk : Nat → Range) (s s' : At) (S : Set Nat)
    (a : Nat) : Prop where
  meets : suits S a
  least : ∀ b, suits S b → a ≤ b
  free : block (chunk a) ⊆ S
  holds : Holds s'.mem s'.reg (S \ block (chunk a))
  alike : Alike s.reg s'.reg
  frame : ∀ x, x ∉ S → s'.mem x = s.mem x

/-- The search of a region finds the least address that suits, and takes its block, or none does. -/
def Searches (suits : Set Nat → Nat → Prop) (chunk : Nat → Range)
    (find : At → Outcome (Option (At × Nat))) (s : At) (S : Set Nat) : Prop :=
  (find s = .ok none ∧ ∀ a, ¬suits S a) ∨
    ∃ s' a, find s = .ok (some (s', a)) ∧ Gives suits chunk s s' S a

/-- How a search of all regions ends that finds an address. -/
structure Allots (suits : Set Nat → Nat → Prop) (skip : Region → Bool) (chunk : Nat → Range)
    (l l' : Manager) (S : Set Nat) (a : Nat) : Prop where
  stocked : Stocked l'.mem l'.regions (S \ block (chunk a))
  alike : List.Forall₂ Alike l.regions l'.regions
  frame : ∀ x, x ∉ S → l'.mem x = l.mem x
  /-- The first region in which an address suits, and the least one there. -/
  first : ∃ left reg right, l.regions = left ++ reg :: right ∧ skip reg = false ∧
    (∀ r ∈ left, skip r = false → ∀ b, ¬suits (S ∩ r.bytes) b) ∧ suits (S ∩ reg.bytes) a ∧
    (∀ b, suits (S ∩ reg.bytes) b → a ≤ b) ∧ block (chunk a) ⊆ S ∩ reg.bytes

theorem forall₂_alike_refl (regions : List Region) : List.Forall₂ Alike regions regions :=
  List.forall₂_same.mpr fun reg _ => Alike.refl reg

theorem forall₂_alike_middle (left right : List Region) (h : Alike reg reg') :
    List.Forall₂ Alike (left ++ reg :: right) (left ++ reg' :: right) := by
  induction left with
  | nil => exact .cons h (forall₂_alike_refl right)
  | cons r left ih => exact .cons (Alike.refl r) ih

variable {suits : Set Nat → Nat → Prop} {skip : Region → Bool} {chunk : Nat → Range}
  {find : At → Outcome (Option (At × Nat))}

/-- A region without a block is left for the next ones. -/
theorem eachRegion_cons_none {regions : List Region} {later : Option (Mem × List Region × Nat)}
    (sane : reg.sane) (none : skip reg = true ∨ find ⟨m, reg⟩ = .ok none)
    (rest : eachRegion skip find m regions = .ok later) :
    eachRegion skip find m (reg :: regions) =
      .ok (later.map fun found => (found.1, reg :: found.2.1, found.2.2)) := by
  rw [eachRegion, check_of sane]
  by_cases skipped : skip reg = true
  · simp only [skipped, if_true, bind, Except.bind, pure, Except.pure, rest]
  · have none := none.resolve_left skipped
    simp only [skipped, none, rest, bind, Except.bind, pure, Except.pure]
    rfl

theorem eachRegion_cons_some (skip : Region → Bool) (find : At → Outcome (Option (At × Nat)))
    {regions : List Region} {s' : At} {a : Nat} (sane : reg.sane) (searched : skip reg = false)
    (found : find ⟨m, reg⟩ = .ok (some (s', a))) :
    eachRegion skip find m (reg :: regions) = .ok (some (s'.mem, s'.reg :: regions, a)) := by
  rw [eachRegion, check_of sane]
  simp only [searched, found, bind, Except.bind, pure, Except.pure]
  rfl

/-- The loop over the regions. -/
theorem eachRegion_finds {regions : List Region}
    (holds : ∀ reg ∈ regions, Holds m reg (S ∩ reg.bytes))
    (searches : ∀ reg ∈ regions, skip reg = false → Searches suits chunk find ⟨m, reg⟩ (S ∩ reg.bytes)) :
    (eachRegion skip find m regions = .ok none ∧
      ∀ r ∈ regions, skip r = false → ∀ b, ¬suits (S ∩ r.bytes) b) ∨
    ∃ left reg right s' a, regions = left ++ reg :: right ∧ skip reg = false ∧
      (∀ r ∈ left, skip r = false → ∀ b, ¬suits (S ∩ r.bytes) b) ∧
      Gives suits chunk ⟨m, reg⟩ s' (S ∩ reg.bytes) a ∧
      eachRegion skip find m regions = .ok (some (s'.mem, left ++ s'.reg :: right, a)) := by
  induction regions with
  | nil => exact .inl ⟨rfl, by simp⟩
  | cons reg regions ih =>
      have here := holds reg List.mem_cons_self
      have later := ih (fun r mem => holds r (List.mem_cons_of_mem reg mem))
        fun r mem => searches r (List.mem_cons_of_mem reg mem)
      -- Without a block in the first region the search goes on.
      have goes_on : (skip reg = true ∨ find ⟨m, reg⟩ = .ok none) →
          (skip reg = false → ∀ b, ¬suits (S ∩ reg.bytes) b) →
          (eachRegion skip find m (reg :: regions) = .ok none ∧
            ∀ r ∈ reg :: regions, skip r = false → ∀ b, ¬suits (S ∩ r.bytes) b) ∨
          ∃ left reg' right s' a, reg :: regions = left ++ reg' :: right ∧ skip reg' = false ∧
            (∀ r ∈ left, skip r = false → ∀ b, ¬suits (S ∩ r.bytes) b) ∧
            Gives suits chunk ⟨m, reg'⟩ s' (S ∩ reg'.bytes) a ∧
            eachRegion skip find m (reg :: regions) =
              .ok (some (s'.mem, left ++ s'.reg :: right, a)) := by
        intro none here_none
        rcases later with ⟨result, all⟩ | ⟨left, reg', right, s', a, rfl, searched, all, gives, result⟩
        · refine .inl ⟨eachRegion_cons_none here.sane none result, ?_⟩
          intro r mem
          rcases List.mem_cons.mp mem with rfl | mem
          · exact here_none
          · exact all r mem
        · refine .inr ⟨reg :: left, reg', right, s', a, rfl, searched, ?_, gives,
            eachRegion_cons_none here.sane none result⟩
          intro r mem
          rcases List.mem_cons.mp mem with rfl | mem
          · exact here_none
          · exact all r mem
      cases skipped : skip reg with
      | true => exact goes_on (.inl skipped) fun no => by simp [skipped] at no
      | false =>
          rcases searches reg List.mem_cons_self skipped with ⟨none, all⟩ | ⟨s', a, found, gives⟩
          · exact goes_on (.inr none) fun _ => all
          · exact .inr ⟨[], reg, regions, s', a, rfl, skipped, by simp, gives,
              eachRegion_cons_some skip find here.sane skipped found⟩

/-- All regions are searched, in order. -/
theorem eachRegion_spec {l : Manager} (skip : Region → Bool) (h : Stocked l.mem l.regions S)
    (searches : ∀ reg ∈ l.regions, skip reg = false →
      Searches suits chunk find ⟨l.mem, reg⟩ (S ∩ reg.bytes)) :
    (eachRegion skip find l.mem l.regions = .ok none ∧
      ∀ r ∈ l.regions, skip r = false → ∀ b, ¬suits (S ∩ r.bytes) b) ∨
    ∃ found l' a, eachRegion skip find l.mem l.regions = .ok (some found) ∧
      result l (some found) = (l', a) ∧ Allots suits skip chunk l l' S a := by
  rcases eachRegion_finds h.holds searches with none |
    ⟨left, reg, right, s', a, split, searched, all, gives, result⟩
  · exact .inl none
  · refine .inr ⟨_, _, a, result, rfl, ?_, ?_, ?_, ?_⟩
    · simp only
      refine Stocked.replace (split ▸ h) gives.alike ?_ ?_ ?_
      · have part : (S \ block (chunk a)) ∩ reg.bytes = (S ∩ reg.bytes) \ block (chunk a) := by
          ext x
          simp only [Set.mem_inter_iff, Set.mem_sdiff]
          tauto
        change Holds s'.mem s'.reg ((S \ block (chunk a)) ∩ reg.bytes)
        rw [part]
        exact gives.holds
      · intro x outside
        constructor
        · exact fun mem => mem.1
        · exact fun mem => ⟨mem, fun hit => outside (gives.free hit).2⟩
      · intro x outside
        exact gives.frame x fun mem => outside mem.2
    · rw [split]
      exact forall₂_alike_middle left right gives.alike
    · intro x out
      exact gives.frame x fun mem => out mem.1
    · exact ⟨left, reg, right, split, searched, all, gives.meets, gives.least, gives.free⟩

/-! ### `lmm_alloc` -/

theorem block_subset_cover {l : List Range} (spaced : Spaced l) {a n : Nat} (pos : 0 < n) :
    block ⟨a, n⟩ ⊆ cover l ↔ ∃ r ∈ l, r.start ≤ a ∧ a + n ≤ r.stop :=
  spaced.Ico_subset (Nat.lt_add_of_pos_right pos)

/-- What is taken from a range is taken from the set. -/
theorem Taken.holds {s s' : At} {before after : List Range} {r : Range} {c k : Nat}
    (taken : Taken s s' before r after c k) (laid : Laid s.mem s.reg (before ++ r :: after))
    (free : s.reg.free = total (before ++ r :: after)) (low : r.start ≤ c)
    (high : c + k ≤ r.stop) :
    Holds s'.mem s'.reg (cover (before ++ r :: after) \ block ⟨c, k⟩) := by
  refine ⟨_, taken.laid, ?_, laid.spaced.cover_carve low high⟩
  have counted := taken.free
  have sum := total_carve low high
  rw [total_append, total_append]
  rw [free, total_middle] at counted
  omega

/-- `k` bytes in a row. -/
def rowSuits (k : Nat) (S : Set Nat) (a : Nat) : Prop := block ⟨a, k⟩ ⊆ S

theorem searches_allocNodes {k : Nat} {s : At} (holds : Holds s.mem s.reg S) (pos : 0 < k)
    (aligned : k % 8 = 0) : Searches (rowSuits k) (⟨·, k⟩) (allocNodes k rounds · none) s S := by
  obtain ⟨l, laid, free, rfl⟩ := holds
  have row := fun a => block_subset_cover laid.spaced (a := a) pos
  have start : Laid s.mem s.reg ([] ++ l) := laid
  rcases allocNodes_spec start free pos aligned rounds laid.length_lt with
    ⟨none, all⟩ | ⟨mid, r, rest, s', rfl, all, large, some, taken⟩
  · refine .inl ⟨none, fun a suits => ?_⟩
    obtain ⟨r, mem, low, high⟩ := (row a).mp suits
    have := all r mem
    simp only [stop] at high
    omega
  · have high : r.start + k ≤ r.stop := by
      simp only [stop]
      omega
    have fits : rowSuits k (cover (mid ++ r :: rest)) r.start :=
      (row r.start).mpr ⟨r, by simp, le_refl _, high⟩
    refine .inr ⟨s', r.start, some, fits, fun b suits => ?_, fits,
      taken.holds laid free (le_refl _) high, taken.alike, taken.frame⟩
    obtain ⟨r', mem, low, high'⟩ := (row b).mp suits
    rcases List.mem_append.mp mem with mem | mem
    · have := all r' mem
      simp only [stop] at high'
      omega
    · have ordered := (spaced_cons.mp (spaced_append.mp laid.spaced).2.1).2.1
      rcases List.mem_cons.mp mem with rfl | mem
      · exact low
      · have := ordered r' mem
        simp only [stop] at this
        omega

theorem alignUp_eq {n : Nat} (fits : n + 7 < 2 ^ 32) : alignUp n = (n + 7) / 8 * 8 := by
  rw [alignUp, Nat.mod_eq_of_lt fits]

/-- `lmm_alloc` gives the first block that is large enough, or there is none. -/
theorem alloc_spec {l : Manager} {size : Nat} (flags : BitVec 32)
    (h : Stocked l.mem l.regions S) (pos : 0 < size) (fits : size + 7 < 2 ^ 32) :
    (alloc l size flags = .ok (l, 0) ∧ ∀ r ∈ l.regions, r.lacks flags = false →
      ∀ b, ¬rowSuits (alignUp size) (S ∩ r.bytes) b) ∨
    ∃ l' a, alloc l size flags = .ok (l', a) ∧
      Allots (rowSuits (alignUp size)) (·.lacks flags) (⟨·, alignUp size⟩) l l' S a := by
  have size_eq := alignUp_eq fits
  have searched := eachRegion_spec (·.lacks flags) h
    fun reg mem _ => searches_allocNodes (k := alignUp size) (h.holds reg mem) (by omega) (by omega)
  rcases searched with ⟨none, all⟩ | ⟨found, l', a, some, given, allots⟩
  · refine .inl ⟨?_, all⟩
    rw [alloc, check_of pos]
    simp only [none, bind, Except.bind]
    rfl
  · refine .inr ⟨l', a, ?_, allots⟩
    rw [alloc, check_of pos]
    simp only [some, bind, Except.bind, given]
    rfl

/-! ### `lmm_alloc_gen` -/

/-- A block that meets the request. -/
def Request.Suits (q : Request) (S : Set Nat) (a : Nat) : Prop :=
  q.Admits a ∧ block ⟨a, q.size⟩ ⊆ S

/-- The cells of a block. -/
def cellsOf (a n : Nat) : Range := ⟨alignDown a, alignUp (a % 8 + n)⟩

theorem searches_allocGenNodes {q : Request} {s : At} (holds : Holds s.mem s.reg S)
    (pos : 0 < q.size) (room : ∀ x ∈ S, q.Roomy (x + 1)) :
    Searches q.Suits (cellsOf · q.size) (allocGenNodes q rounds · none) s S := by
  obtain ⟨l, laid, free, rfl⟩ := holds
  have row := fun a => block_subset_cover laid.spaced (a := a) pos
  have rooms : ∀ r ∈ l, q.Roomy r.stop := by
    intro r mem
    have last := laid.spaced.nonempty r mem
    have inside : r.stop - 1 ∈ cover l := by
      refine ⟨r, mem, ?_, ?_⟩
      all_goals
        simp only [stop]
        omega
    have room := room _ inside
    rwa [Nat.sub_add_cancel (by simp only [stop]; omega)] at room
  have start : Laid s.mem s.reg ([] ++ l) := laid
  rcases allocGenNodes_spec start free pos rounds laid.length_lt rooms with
    ⟨none, all⟩ | ⟨mid, r, rest, s', a, rfl, all, admits, low, high, least, some, taken⟩
  · refine .inl ⟨none, fun a suits => ?_⟩
    obtain ⟨r, mem, low, high⟩ := (row a).mp suits.2
    have := all r mem a suits.1 low
    omega
  · have aligned := laid.aligned r (by simp)
    have within := laid.within r (by simp)
    have bound := s.reg.max_lt
    have max8 := s.reg.max_aligned
    have clow : r.start ≤ alignDown a := by
      simp only [alignDown]
      omega
    have chigh : alignDown a + alignUp (a % 8 + q.size) ≤ r.stop := by
      rw [alignUp_eq (by omega)]
      simp only [alignDown, stop] at *
      omega
    have cpos : 0 < alignUp (a % 8 + q.size) := by
      rw [alignUp_eq (by omega)]
      omega
    have chunk : block (cellsOf a q.size) ⊆ cover (mid ++ r :: rest) :=
      (block_subset_cover laid.spaced cpos).mpr ⟨r, by simp, clow, chigh⟩
    refine .inr ⟨s', a, some, ⟨admits, (row a).mpr ⟨r, by simp, low, high⟩⟩,
      fun b suits => ?_, chunk, taken.holds laid free clow chigh, taken.alike, taken.frame⟩
    obtain ⟨r', mem, low', high'⟩ := (row b).mp suits.2
    rcases List.mem_append.mp mem with mem | mem
    · have := all r' mem b suits.1 low'
      omega
    · have ordered := (spaced_cons.mp (spaced_append.mp laid.spaced).2.1).2.1
      rcases List.mem_cons.mp mem with rfl | mem
      · exact least b suits.1 low'
      · have := ordered r' mem
        omega

/-- `lmm_alloc_gen` gives the first block that meets the request, or there is none. -/
theorem allocGen_spec {l : Manager} {size : Nat} (flags : BitVec 32)
    (alignBits alignOfs inMin inSize : Nat) (h : Stocked l.mem l.regions S) (pos : 0 < size)
    (fits : inMin + inSize < 2 ^ 32)
    (room : ∀ x ∈ S, Request.Roomy ⟨size, alignBits, alignOfs, inMin, inMin + inSize⟩ (x + 1)) :
    (allocGen l size flags alignBits alignOfs inMin inSize = .ok (l, 0) ∧
      ∀ r ∈ l.regions, r.lacks flags = false → ∀ b,
        ¬Request.Suits ⟨size, alignBits, alignOfs, inMin, inMin + inSize⟩ (S ∩ r.bytes) b) ∨
    ∃ l' a, allocGen l size flags alignBits alignOfs inMin inSize = .ok (l', a) ∧
      Allots (Request.Suits ⟨size, alignBits, alignOfs, inMin, inMin + inSize⟩)
        (·.lacks flags) (cellsOf · size) l l' S a := by
  obtain ⟨q, hq⟩ : ∃ q : Request, q = ⟨size, alignBits, alignOfs, inMin, inMin + inSize⟩ := ⟨_, rfl⟩
  have qsize : q.size = size := hq ▸ rfl
  rw [← hq] at room ⊢
  -- In a region that is passed over for its bounds no block meets the request.
  have bounds : ∀ r : Region, (r.lacks flags || q.inMax ≤ r.min || r.max ≤ q.inMin) = true →
      r.lacks flags = false → ∀ b, ¬q.Suits (S ∩ r.bytes) b := by
    intro r skipped has b suits
    have inside := (suits.2 ⟨le_refl b, Nat.lt_add_of_pos_right (by simp only; omega)⟩).2
    have admits := suits.1
    have low := admits.low
    have high := admits.high
    have := inside.1
    have := inside.2
    simp only [has, Bool.false_or, Bool.or_eq_true, decide_eq_true_eq] at skipped
    omega
  have searched := eachRegion_spec
    (fun r => r.lacks flags || q.inMax ≤ r.min || r.max ≤ q.inMin) h
    fun reg mem _ => searches_allocGenNodes (h.holds reg mem) (by omega) fun x free => room x free.1
  have given : allocGen l size flags alignBits alignOfs inMin inSize =
      (eachRegion (fun r => r.lacks flags || q.inMax ≤ r.min || r.max ≤ q.inMin)
        (allocGenNodes q rounds · none) l.mem l.regions >>= fun found => pure (result l found)) := by
    rw [hq, allocGen, check_of pos]
    simp only [Nat.mod_eq_of_lt fits]
    rfl
  -- Whether a region is passed over for its flags or its bounds, nothing suits in it.
  have unskip : ∀ r : Region, ((r.lacks flags || q.inMax ≤ r.min || r.max ≤ q.inMin) = false →
      ∀ b, ¬q.Suits (S ∩ r.bytes) b) → r.lacks flags = false → ∀ b, ¬q.Suits (S ∩ r.bytes) b := by
    intro r none has
    cases skipped : (r.lacks flags || q.inMax ≤ r.min || r.max ≤ q.inMin) with
    | true => exact bounds r skipped has
    | false => exact none skipped
  rw [given]
  rcases searched with ⟨none, all⟩ | ⟨found, l', a, some, outcome, allots⟩
  · refine .inl ⟨?_, fun r mem has => unskip r (all r mem) has⟩
    rw [none]
    rfl
  · obtain ⟨left, reg, right, split, searched, before, suits, least, free⟩ := allots.first
    refine .inr ⟨l', a, ?_, qsize ▸ allots.stocked, allots.alike, allots.frame, left, reg, right,
      split, ?_, fun r mem has => unskip r (before r mem) has, suits, least, qsize ▸ free⟩
    · rw [some]
      change Except.ok (result l (Option.some found)) = _
      rw [outcome]
    · simp only [Bool.or_eq_false_iff] at searched
      exact searched.1.1

end OsKernel.Lmm
