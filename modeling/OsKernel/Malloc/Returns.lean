/-
The functions that give a block back, `realloc`, and the whole step.
-/

import OsKernel.Malloc.Calls

namespace OsKernel.Malloc

open OsKernel.Words OsKernel.Lmm OsKernel.Range

variable {W : Set Nat} {regions : List Region} {s : State} {a n size p : Nat} {b : Block} {c : Call}
  {m : Mem}

/-- Where a block that is out lies. -/
theorem Sound.pointer_bounds (h : Sound W regions s) (mem : b ∈ s.live) :
    8 ≤ b.addr ∧ b.addr < 2 ^ 31 ∧ b.size < 2 ^ 31 := by
  have lies := h.lies b mem
  have pos := lies.pos
  have first := h.bounds b.addr (lies.owned (lies.mem_cells (le_refl _) (by omega)))
  have last := h.bounds (b.addr + b.size - 1) (lies.owned (lies.mem_cells (by omega) (by omega)))
  omega

/-- From the pointer behind a header `free` and `realloc` find the block. -/
theorem Sound.chunk_of_pointer (h : Sound W regions s) (mem : b ∈ s.live)
    (headed : b.headed = true) :
    (b.pointer + 2 ^ 32 - 4) % 2 ^ 32 = b.addr ∧ word s.heap.mem b.addr = b.size ∧ 4 ≤ b.size := by
  have bounds := h.pointer_bounds mem
  have header := (h.lies b mem).header headed
  refine ⟨?_, header.2, header.1⟩
  rw [Block.pointer, if_pos headed]
  omega

/-- `lmm_free` of a block that is out. -/
theorem Sound.freed (h : Sound W regions s) (mem : b ∈ s.live) :
    ∃ l', s.heap.freeWith b.addr b.size = .ok ⟨l', false⟩ ∧
      Stocked l'.mem l'.regions (W \ out s.live ∪ block b.cells) ∧
      List.Forall₂ Alike s.heap.lmm.regions l'.regions ∧
      ∀ x, x ∉ W \ out s.live ∪ block b.cells → l'.mem x = s.heap.mem x := by
  have lies := h.lies b mem
  have pos := lies.pos
  have bounds := h.pointer_bounds mem
  have cells := lies.cells_eq
  obtain ⟨reg, memr, within⟩ := lies.region
  obtain ⟨reg', memr', like⟩ := exists_alike h.alike memr
  have placed : Out s.heap.lmm.regions (W \ out s.live) (cellsOf b.addr b.size) := by
    change Out _ _ b.cells
    refine ⟨?_, ?_, ?_, ⟨reg', memr', like.bytes ▸ within⟩, fun x inside free =>
      free.2 ⟨b, mem, inside⟩⟩
    all_goals
      rw [cells]
      simp only
      omega
  obtain ⟨l', done, stocked, alike, frame⟩ := free_spec h.stocked pos placed
  exact ⟨l', freeWith_eq h.idle done, stocked, alike, frame⟩

/-- Other blocks are left when one is given back. -/
theorem keeps_of_returned {s' : State} (h : Sound W regions s) (mem : b ∈ s.live)
    (left : ∀ b' ∈ s'.live, b' ∈ s.live → b' ≠ b)
    (frame : ∀ x, x ∉ W \ out s.live ∪ block b.cells → s'.heap.mem x = s.heap.mem x) :
    Keeps s s' c := by
  intro b' mem' remains x inside _
  refine frame x ?_
  rintro (free | hit)
  · exact h.payload_out mem' inside free
  · exact Set.disjoint_left.mp (h.apart.forall mem' mem (left b' remains mem'))
      ((h.lies b' mem').payload_subset inside) hit

/-- A block is given back. -/
theorem fine_of_returned (h : Sound W regions s) (mem : b ∈ s.live)
    (returns : c.returns 0 = some b.key)
    (ran : ∀ h', s.heap.freeWith b.addr b.size = .ok h' → c.exec s.heap = .ok (h', 0)) :
    Fine W regions s c := by
  obtain ⟨l', done, stocked, alike, frame⟩ := h.freed mem
  have next : step s c = ⟨⟨l', false⟩, s.live.filter (·.key ≠ b.key), none⟩ := by
    rw [step_ok h.running (ran _ done), Call.record, if_pos rfl, returns, filter_some]
    rfl
  refine ⟨next ▸ h.returned mem stocked alike frame, ?_⟩
  rw [next]
  exact keeps_of_returned h mem (fun b' remains _ => ((h.mem_filter mem _).mp remains).2) frame

theorem fine_free (h : Sound W regions s) (mem : b ∈ s.live) (headed : b.headed = true) :
    Fine W regions s (.free b.pointer) := by
  obtain ⟨chunk, header, -⟩ := h.chunk_of_pointer mem headed
  have key : b.key = (true, b.pointer) := by rw [Block.key, headed]
  refine fine_of_returned h mem (key ▸ rfl) fun h' done => ?_
  simp only [Call.exec, free, chunk, header, done, bind, Except.bind]
  rfl

theorem fine_sfree (h : Sound W regions s) (mem : b ∈ s.live) (plain : b.headed = false) :
    Fine W regions s (.sfree b.pointer b.size) := by
  have pointer : b.pointer = b.addr := by simp [Block.pointer, plain]
  have key : b.key = (false, b.pointer) := by rw [Block.key, plain]
  refine fine_of_returned h mem (key ▸ rfl) fun h' done => ?_
  simp only [Call.exec, sfree, pointer, done, bind, Except.bind]
  rfl

theorem fine_store (h : Sound W regions s) (mem : b ∈ s.live) {addr : Nat} (byte : BitVec 8)
    (inside : addr ∈ b.payload) : Fine W regions s (.store addr byte) := by
  have next : step s (.store addr byte) =
      ⟨s.heap.setMem (Function.update s.heap.mem addr byte), s.live, none⟩ := by
    rw [step_ok (c := .store addr byte) h.running rfl, Call.record, if_pos rfl]
    exact congrArg (State.mk _ · none) (filter_none s.live)
  have written := h.written mem fun x notin =>
    Function.update_of_ne (fun same : x = addr => notin (same ▸ inside)) byte s.heap.mem
  rw [h.running] at written
  refine ⟨next ▸ written, fun b' _ _ x _ other => ?_⟩
  rw [next]
  refine Function.update_of_ne (fun same : x = addr => ?_) _ _
  exact other byte (same ▸ rfl)

/-! ### `realloc` -/

/-- A block gets its header. -/
theorem Sound.headed {heap : Heap} {live : List Block} {n a : Nat}
    (h : Sound W regions ⟨heap, ⟨a, n, false⟩ :: live, none⟩) (four : 4 ≤ n)
    (header : word heap.mem a = n) : Sound W regions ⟨heap, ⟨a, n, true⟩ :: live, none⟩ := by
  have apart := List.pairwise_cons.mp h.apart
  refine ⟨rfl, h.idle, h.bounds, ?_, h.alike, List.pairwise_cons.mpr ⟨apart.1, apart.2⟩, ?_⟩
  · have same : out (⟨a, n, true⟩ :: live) = out (⟨a, n, false⟩ :: live) := by
      rw [out_cons, out_cons]
      rfl
    change Stocked heap.mem heap.lmm.regions (W \ out (⟨a, n, true⟩ :: live))
    rw [same]
    exact h.stocked
  · intro b mem
    rcases List.mem_cons.mp mem with rfl | mem
    · have plain := h.lies ⟨a, n, false⟩ List.mem_cons_self
      exact ⟨plain.pos, plain.fits, plain.owned, plain.region, fun _ => ⟨four, header⟩⟩
    · exact h.lies b (List.mem_cons_of_mem _ mem)

/-- The bytes that `realloc` copies. -/
def copied (b : Block) (size : Nat) : Nat := if b.size < size + 4 then b.size else size + 4

/-- `realloc` of a block that is out either finds no room, or moves its bytes to a new block. -/
theorem realloc_spec (h : Sound W regions s) (fits : size + 11 < 2 ^ 32) (mem : b ∈ s.live)
    (headed : b.headed = true) :
    (realloc s.heap b.pointer size = .ok (s.heap, 0) ∧ ∀ r ∈ s.heap.lmm.regions, ∀ x,
      ¬rowSuits (alignUp (size + 4)) ((W \ out s.live) ∩ r.bytes) x) ∨
    ∃ a m' regions', realloc s.heap b.pointer size = .ok (⟨⟨m', regions'⟩, false⟩, a + 4) ∧ 8 ≤ a ∧
      ⟨a, size + 4, true⟩ ∉ s.live ∧
      Sound W regions ⟨⟨⟨m', regions'⟩, false⟩,
        ⟨a, size + 4, true⟩ :: s.live.filter (·.key ≠ b.key), none⟩ ∧
      (∀ i, i < size → b.pointer + i < b.addr + b.size →
        m' (a + 4 + i) = s.heap.mem (b.pointer + i)) ∧
      ∀ b' ∈ s.live, b' ≠ b → ∀ x ∈ b'.payload, m' x = s.heap.mem x := by
  obtain ⟨chunk, header, four⟩ := h.chunk_of_pointer mem headed
  have bounds := h.pointer_bounds mem
  have pointer : b.pointer = b.addr + 4 := by rw [Block.pointer, if_pos headed]
  have null : b.pointer ≠ 0 := by omega
  have wrap : (size + 4) % 2 ^ 32 = size + 4 := Nat.mod_eq_of_lt (by omega)
  rw [realloc, if_neg null]
  simp only [chunk, header, wrap]
  rcases alloc_granted h (n := size + 4) (by omega) (by omega) with ⟨none, all⟩ |
    ⟨l', a, got, granted, -⟩
  · refine .inl ⟨?_, all⟩
    rw [allocWith_none (alloc · (size + 4) 0) h.idle none]
    rfl
  · have low := granted.low
    have high := granted.high
    have lies := h.lies b mem
    -- The new block, without its header, and the copy in it.
    let m₁ := memcpy l'.mem a b.addr (copied b size)
    let s₁ : State := ⟨⟨⟨m₁, l'.regions⟩, false⟩, ⟨a, size + 4, false⟩ :: s.live, none⟩
    have short : copied b size ≤ size + 4 ∧ copied b size ≤ b.size := by
      rw [copied]
      split <;> omega
    have wrote : ∀ x, x ∉ block (cellsOf a (size + 4)) → m₁ x = l'.mem x := by
      intro x notin
      refine if_neg fun inside => notin ?_
      have := granted.fits
      rw [cellsOf, alignDown, alignUp_eq granted.fits]
      constructor
      · simp only
        omega
      · simp only [stop]
        omega
    have sound₁ : Sound W regions s₁ := h.given granted.stocked granted.alike granted.frame
      granted.free granted.region wrote (by simp only; omega) granted.fits fun no => by cases no
    have mem₁ : b ∈ s₁.live := List.mem_cons_of_mem _ mem
    have new₁ : (⟨a, size + 4, false⟩ : Block) ∈ s₁.live := List.mem_cons_self
    -- The old one is given back.
    obtain ⟨l₂, done, stocked, alike, frame⟩ := sound₁.freed mem₁
    have sound₂ := sound₁.returned mem₁ stocked alike frame
    have rest : s₁.live.filter (·.key ≠ b.key) =
        ⟨a, size + 4, false⟩ :: s.live.filter (·.key ≠ b.key) :=
      List.filter_cons_of_pos (by simp [Block.key, headed])
    rw [rest] at sound₂
    have stored : ∀ x, x ∉ (⟨a, size + 4, false⟩ : Block).payload →
        putWord l₂.mem a (size + 4) x = l₂.mem x := fun x notin =>
      putWord_of_notMem fun inside => notin ⟨inside.1, by have := inside.2; simp only; omega⟩
    have sound₃ := (sound₂.written List.mem_cons_self stored).headed (by omega)
      (word_putWord (by omega))
    have untouched : ∀ b' ∈ s₁.live, b' ≠ b → ∀ x ∈ block b'.cells, l₂.mem x = m₁ x := by
      intro b' mem' differ x inside
      refine frame x ?_
      rintro (free | hit)
      · exact free.2 ⟨b', mem', inside⟩
      · exact Set.disjoint_left.mp (sound₁.apart.forall mem' mem₁ differ) inside hit
    have lies₁ := sound₁.lies _ new₁
    have fresh : (⟨a, size + 4, true⟩ : Block) ∉ s.live := fun mem' =>
      (granted.free (lies₁.mem_cells (le_refl a) (by simp only; omega))).2
        ⟨_, mem', lies₁.mem_cells (le_refl a) (by simp only; omega)⟩
    refine .inr ⟨a, putWord l₂.mem a (size + 4), l₂.regions, ?_, low, fresh, sound₃, ?_, ?_⟩
    · rw [allocWith_eq (alloc · (size + 4) 0) h.idle got]
      change (if a = 0 then _ else _) = _
      rw [if_neg (by omega)]
      change ((⟨⟨m₁, l'.regions⟩, false⟩ : Heap).freeWith b.addr b.size >>= fun h => _) = _
      have done' : (⟨⟨m₁, l'.regions⟩, false⟩ : Heap).freeWith b.addr b.size = .ok ⟨l₂, false⟩ := done
      have wrap' : (a + 4) % 2 ^ 32 = a + 4 := Nat.mod_eq_of_lt (by omega)
      rw [done']
      change Except.ok (_, (a + 4) % 2 ^ 32) = _
      rw [wrap']
      rfl
    · intro i inew iold
      have range : a + 4 + i < a + (size + 4) := by omega
      have copy : a + 4 + i < a + copied b size := by
        rw [copied]
        split <;> omega
      have ne : (⟨a, size + 4, false⟩ : Block) ≠ b := by
        rintro rfl
        cases headed
      have cell : a + 4 + i ∈ block (⟨a, size + 4, false⟩ : Block).cells :=
        lies₁.mem_cells (by simp only; omega) range
      calc putWord l₂.mem a (size + 4) (a + 4 + i) = l₂.mem (a + 4 + i) :=
            putWord_of_notMem fun inside => by have := inside.2; omega
        _ = m₁ (a + 4 + i) := untouched _ new₁ ne _ cell
        _ = l'.mem (b.addr + (a + 4 + i - a)) := if_pos ⟨by omega, copy⟩
        _ = s.heap.mem (b.addr + (a + 4 + i - a)) :=
            granted.frame _ fun free => free.2 ⟨b, mem, lies.mem_cells (by omega) (by omega)⟩
        _ = s.heap.mem (b.pointer + i) := congrArg s.heap.mem (by omega)
    · intro b' mem' differ x inside
      have lies' := h.lies b' mem'
      have own : x ∉ block (cellsOf a (size + 4)) := fun hit =>
        h.payload_out mem' inside (granted.free hit)
      calc putWord l₂.mem a (size + 4) x = l₂.mem x := putWord_of_notMem fun hit => own
            (lies₁.mem_cells hit.1 (by have := hit.2; simp only; omega))
        _ = m₁ x := untouched b' (List.mem_cons_of_mem _ mem') differ x (lies'.payload_subset inside)
        _ = l'.mem x := wrote x own
        _ = s.heap.mem x := granted.frame x (h.payload_out mem' inside)

theorem fine_realloc (h : Sound W regions s) (fits : size + 11 < 2 ^ 32) (mem : b ∈ s.live)
    (headed : b.headed = true) : Fine W regions s (.realloc b.pointer size) := by
  have key : b.key = (true, b.pointer) := by rw [Block.key, headed]
  rcases realloc_spec h fits mem headed with ⟨none, -⟩ |
    ⟨a, m', regions', ran, low, fresh, sound, -, frame⟩
  · exact fine_of_none h none rfl
  · have next : step s (.realloc b.pointer size) = ⟨⟨⟨m', regions'⟩, false⟩,
        ⟨a, size + 4, true⟩ :: s.live.filter (·.key ≠ b.key), none⟩ := by
      have returns : (Call.realloc b.pointer size).returns (a + 4) = some b.key := by
        rw [key]
        rfl
      rw [step_ok (c := .realloc b.pointer size) h.running ran, Call.record, if_neg (by omega),
        returns, filter_some]
      rfl
    refine ⟨next ▸ sound, fun b' mem' remains x inside _ => ?_⟩
    rw [next] at remains ⊢
    by_cases same : b' = b
    · subst same
      -- The block that is given back is not among those that are out afterwards.
      rcases List.mem_cons.mp remains with new | remains
      · exact absurd (new ▸ mem) fresh
      · exact absurd rfl ((h.mem_filter mem _).mp remains).2
    · exact frame b' mem' same x inside

/-- Without a block `realloc` is `malloc`. -/
theorem fine_realloc_null (h : Sound W regions s) (fits : size + 11 < 2 ^ 32) :
    Fine W regions s (.realloc 0 size) := by
  have kept : (s.live.filter fun b => some (true, 0) ≠ some b.key) = s.live := by
    refine List.filter_eq_self.mpr fun b mem => decide_eq_true fun same => ?_
    have bounds := h.pointer_bounds mem
    have pointer := b.addr_le_pointer
    have null : 0 = b.pointer := congrArg Prod.snd (Option.some.inj same)
    omega
  rcases malloc_spec h fits with ⟨none, -⟩ | ⟨l', a, got, granted, -⟩
  · exact fine_of_none h none rfl
  · exact (fine_of_labelled (c := .realloc 0 size) h granted (by omega) got rfl kept).1

/-- Every legal call keeps the invariant, and leaves what is in the blocks. -/
theorem fine_step (h : Sound W regions s) (legal : Legal s c) : Fine W regions s c := by
  cases c with
  | malloc size => exact fine_malloc h legal
  | memalign alignment size => exact fine_memalign h legal.1 legal.2
  | calloc nelt eltsize => exact (fine_calloc h legal).1
  | realloc buf newSize =>
      obtain ⟨fits, rfl | ⟨b, mem, headed, rfl⟩⟩ := legal
      · exact fine_realloc_null h fits
      · exact fine_realloc h fits mem headed
  | free buf =>
      obtain ⟨b, mem, headed, rfl⟩ := legal
      exact fine_free h mem headed
  | smalloc size => exact fine_smalloc h legal.1 legal.2
  | smemalign alignment size => exact fine_smemalign h legal.1 legal.2.1
  | sfree buf size =>
      obtain ⟨b, mem, plain, rfl, rfl⟩ := legal
      exact fine_sfree h mem plain
  | store addr byte =>
      obtain ⟨b, mem, inside⟩ := legal
      exact fine_store h mem byte inside

end OsKernel.Malloc
