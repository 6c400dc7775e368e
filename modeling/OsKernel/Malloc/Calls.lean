/-
What each allocation function does to a sound heap.
-/

import OsKernel.Malloc.Sound

namespace OsKernel.Malloc

open OsKernel.Words OsKernel.Lmm OsKernel.Range

variable {W : Set Nat} {regions : List Region} {s : State} {l' : Manager} {a n size p : Nat}
  {b : Block} {c : Call} {live : List Block} {m : Mem}

/-! ### The manager gives a block -/

/-- The manager gave the `n` bytes at `a`, and took their cells from the free ones. -/
structure Granted (W : Set Nat) (s : State) (l' : Manager) (a n : Nat) : Prop where
  stocked : Stocked l'.mem l'.regions ((W \ out s.live) \ block (cellsOf a n))
  alike : List.Forall₂ Alike s.heap.lmm.regions l'.regions
  frame : ∀ x, x ∉ W \ out s.live → l'.mem x = s.heap.mem x
  free : block (cellsOf a n) ⊆ W \ out s.live
  region : ∃ reg ∈ s.heap.lmm.regions, block (cellsOf a n) ⊆ reg.bytes
  fits : a % 8 + n + 7 < 2 ^ 32
  low : 8 ≤ a
  high : a < 2 ^ 31

theorem lacks_zero (reg : Region) : reg.lacks 0 = false := by
  simp [Region.lacks]

/-- The cells that a search took are those of the block. -/
theorem Allots.granted {suits : Set Nat → Nat → Prop} {skip : Region → Bool} {chunk : Nat → Range}
    (h : Sound W regions s) (pos : 0 < n) (fits : a % 8 + n + 7 < 2 ^ 32)
    (allots : Allots suits skip chunk s.heap.lmm l' (W \ out s.live) a)
    (cells : chunk a = cellsOf a n) : Granted W s l' a n := by
  obtain ⟨left, reg, right, split, -, -, -, -, free⟩ := allots.first
  have stocked := allots.stocked
  rw [cells] at free stocked
  have inside : a ∈ block (cellsOf a n) := by
    rw [cellsOf, alignDown, alignUp_eq fits]
    constructor
    · simp only
      omega
    · simp only [stop]
      omega
  have bounds := h.bounds a (free inside).1.1
  exact ⟨stocked, allots.alike, allots.frame, fun x hit => (free hit).1,
    ⟨reg, split ▸ by simp, fun x hit => (free hit).2⟩, fits, bounds.1, bounds.2⟩

/-- A row of free bytes starts with a cell. -/
theorem rowSuits_aligned {S : Set Nat} {reg : Region} {k : Nat} (holds : Holds m reg S)
    (pos : 0 < k) (suits : rowSuits k S a) (least : ∀ b, rowSuits k S b → a ≤ b) : a % 8 = 0 := by
  have start : a ∈ S := suits ⟨le_refl a, Nat.lt_add_of_pos_right pos⟩
  have cell : rowSuits k S (a / 8 * 8) := by
    rintro x ⟨low, high⟩
    simp only [stop] at low high
    by_cases inside : a ≤ x
    · exact suits ⟨inside, by simp only [stop]; omega⟩
    · exact (holds.cells start).2.2 x (by omega)
  have := least _ cell
  omega

/-- `lmm_alloc` either finds no row of free bytes that is long enough, or gives the first one. -/
theorem alloc_granted (h : Sound W regions s) (pos : 0 < n) (fits : n + 7 < 2 ^ 32) :
    (alloc s.heap.lmm n 0 = .ok (s.heap.lmm, 0) ∧ ∀ r ∈ s.heap.lmm.regions, ∀ b,
      ¬rowSuits (alignUp n) ((W \ out s.live) ∩ r.bytes) b) ∨
    ∃ l' a, alloc s.heap.lmm n 0 = .ok (l', a) ∧ Granted W s l' a n ∧
      Allots (rowSuits (alignUp n)) (·.lacks 0) (⟨·, alignUp n⟩) s.heap.lmm l' (W \ out s.live) a := by
  rcases alloc_spec 0 h.stocked pos fits with ⟨none, all⟩ | ⟨l', a, got, allots⟩
  · exact .inl ⟨none, fun r mem => all r mem (lacks_zero r)⟩
  · have kpos : 0 < alignUp n := by
      rw [alignUp_eq fits]
      omega
    obtain ⟨left, reg, right, split, -, -, suits, least, free⟩ := allots.first
    have aligned := rowSuits_aligned (h.stocked.holds reg (split ▸ by simp)) kpos suits least
    have cells : cellsOf a n = ⟨a, alignUp n⟩ := by
      rw [cellsOf, alignDown, aligned, Nat.zero_add]
      congr 1
      omega
    exact .inr ⟨l', a, got, Allots.granted h pos (by omega) allots cells.symm, allots⟩

/-- The request of `lmm_alloc_aligned`. -/
def alignedRequest (size shift ofs : Nat) : Request := ⟨size, shift, ofs, 0, 2 ^ 32 - 1⟩

/-- `lmm_alloc_aligned` either finds no block with the alignment, or gives the first one. -/
theorem allocAligned_granted {shift : Nat} (ofs : Nat) (h : Sound W regions s) (pos : 0 < n)
    (small : shift ≤ 31) :
    (allocAligned s.heap.lmm n 0 shift ofs = .ok (s.heap.lmm, 0) ∧
      ∀ r ∈ s.heap.lmm.regions, ∀ b,
        ¬(alignedRequest n shift ofs).Suits ((W \ out s.live) ∩ r.bytes) b) ∨
    ∃ l' a, allocAligned s.heap.lmm n 0 shift ofs = .ok (l', a) ∧ Granted W s l' a n ∧
      Allots (alignedRequest n shift ofs).Suits (·.lacks 0) (cellsOf · n) s.heap.lmm l'
        (W \ out s.live) a := by
  have power : 2 ^ shift ≤ 2 ^ 31 := Nat.pow_le_pow_right (by decide) small
  have whole : (0 : Nat) + (2 ^ 32 - 1) = 2 ^ 32 - 1 := Nat.zero_add _
  have room : ∀ x ∈ W \ out s.live,
      Request.Roomy ⟨n, shift, ofs, 0, 0 + (2 ^ 32 - 1)⟩ (x + 1) := by
    intro x free
    have := (h.bounds x free.1).2
    exact ⟨by simp only; omega, .inl rfl⟩
  have spec := allocGen_spec 0 shift ofs 0 (2 ^ 32 - 1) h.stocked pos (by decide) room
  rw [whole] at spec
  rcases spec with ⟨none, all⟩ | ⟨l', a, got, allots⟩
  · exact .inl ⟨none, fun r mem => all r mem (lacks_zero r)⟩
  · obtain ⟨left, reg, right, split, -, -, suits, -, -⟩ := allots.first
    -- The block lies below 2 GB.
    have first := h.bounds a (suits.2 ⟨le_refl a, Nat.lt_add_of_pos_right pos⟩).1.1
    have last := h.bounds (a + n - 1)
      (suits.2 ⟨by simp only; omega, by simp only [stop]; omega⟩).1.1
    exact .inr ⟨l', a, got, Allots.granted h pos (by omega) allots rfl, allots⟩

/-! ### Between `malloc_lmm_begin` and `malloc_lmm_end` -/

theorem allocWith_eq {h : Heap} (f : Manager → Outcome (Manager × Nat)) (idle : h.inUse = false)
    (got : f h.lmm = .ok (l', a)) : h.allocWith f = .ok (⟨l', false⟩, a) := by
  rw [Heap.allocWith, Heap.enter, check_of idle]
  simp only [bind, Except.bind, pure, Except.pure, got, Heap.leave, check_of]

theorem allocWith_none {h : Heap} (f : Manager → Outcome (Manager × Nat)) (idle : h.inUse = false)
    (none : f h.lmm = .ok (h.lmm, 0)) : h.allocWith f = .ok (h, 0) := by
  rw [allocWith_eq f idle none, ← idle]

theorem freeWith_eq {h : Heap} (idle : h.inUse = false) (done : Lmm.free h.lmm a n = .ok l') :
    h.freeWith a n = .ok ⟨l', false⟩ := by
  rw [Heap.freeWith, Heap.enter, check_of idle]
  simp only [bind, Except.bind, pure, Except.pure, done, Heap.leave, check_of]

/-- The shift is found when there is one below 32. -/
theorem findShift_spec {alignment : Nat} (fuel shift : Nat)
    (small : alignment ≤ 2 ^ (shift + fuel)) :
    ∃ k, findShift alignment (fuel + 1) shift = .ok k ∧ alignment ≤ 2 ^ k ∧ shift ≤ k ∧
      k ≤ shift + fuel ∧ ∀ j, shift ≤ j → j < k → 2 ^ j < alignment := by
  induction fuel generalizing shift with
  | zero =>
      refine ⟨shift, ?_, small, le_refl _, le_refl _, fun j low high => by omega⟩
      rw [findShift, if_neg (by simpa using small)]
      rfl
  | succ fuel ih =>
      rw [findShift]
      split
      · rename_i less
        obtain ⟨k, found, enough, low, high, least⟩ := ih (shift + 1)
          (by rwa [show shift + 1 + fuel = shift + (fuel + 1) by omega])
        refine ⟨k, found, enough, by omega, by omega, fun j above below => ?_⟩
        rcases Nat.eq_or_lt_of_le above with rfl | above
        · exact less
        · exact least j above below
      · rename_i enough
        exact ⟨shift, rfl, by omega, le_refl _, by omega, fun j low high => by omega⟩

theorem findShift_least {alignment : Nat} (small : alignment ≤ 2 ^ 31) :
    ∃ shift, findShift alignment 32 0 = .ok shift ∧ alignment ≤ 2 ^ shift ∧ shift ≤ 31 ∧
      ∀ j, j < shift → 2 ^ j < alignment := by
  obtain ⟨shift, found, enough, -, high, least⟩ :=
    findShift_spec 31 0 (show alignment ≤ 2 ^ (0 + 31) by simpa using small)
  exact ⟨shift, found, enough, by simpa using high, fun j => least j (Nat.zero_le j)⟩

/-! ### Steps -/

theorem step_ok {h' : Heap} (running : s.stopped = none) (ran : c.exec s.heap = .ok (h', p)) :
    step s c = ⟨h', c.record s.live p, none⟩ := by
  simp only [step, running, ran]

theorem filter_none (live : List Block) :
    (live.filter fun b => (none : Option (Bool × Nat)) ≠ some b.key) = live := by
  simp

theorem filter_some (live : List Block) (k : Bool × Nat) :
    (live.filter fun b => some k ≠ some b.key) = live.filter (·.key ≠ k) := by
  apply List.filter_congr
  intro b _
  simp [eq_comm]

/-- What a call leaves of the blocks that are out before and after it. -/
def Keeps (s s' : State) (c : Call) : Prop :=
  ∀ b ∈ s.live, b ∈ s'.live → ∀ x ∈ b.payload, (∀ v, c ≠ .store x v) →
    s'.heap.mem x = s.heap.mem x

/-- A call keeps the invariant, and what is in the blocks. -/
structure Fine (W : Set Nat) (regions : List Region) (s : State) (c : Call) : Prop where
  sound : Sound W regions (step s c)
  keeps : Keeps s (step s c) c

theorem Sound.payload_out (h : Sound W regions s) (mem : b ∈ s.live) {x : Nat}
    (inside : x ∈ b.payload) : x ∉ W \ out s.live := fun free =>
  free.2 ⟨b, mem, (h.lies b mem).payload_subset inside⟩

/-- A call that finds no block changes nothing. -/
theorem fine_of_none (h : Sound W regions s) (ran : c.exec s.heap = .ok (s.heap, 0))
    (keeps : c.returns 0 = none) : Fine W regions s c := by
  have same : step s c = s := by
    rw [step_ok h.running ran, Call.record, keeps, filter_none]
    simp [← h.running]
  exact ⟨by rwa [same], fun b _ _ x _ _ => by rw [same]⟩

/-- The block that was granted, with its header, and nothing given back. -/
theorem fine_of_granted (headed : Bool) (h : Sound W regions s) (granted : Granted W s l' a n)
    (wrote : ∀ x, x ∉ block (cellsOf a n) → m x = l'.mem x) (pos : 0 < n)
    (header : headed = true → 4 ≤ n ∧ word m a = n)
    (ran : c.exec s.heap = .ok (⟨⟨m, l'.regions⟩, false⟩, p)) (null : p ≠ 0)
    (gives : c.gives p = some ⟨a, n, headed⟩)
    (keeps : (s.live.filter fun b => c.returns p ≠ some b.key) = s.live) :
    Fine W regions s c ∧ step s c = ⟨⟨⟨m, l'.regions⟩, false⟩, ⟨a, n, headed⟩ :: s.live, none⟩ := by
  have next : step s c = ⟨⟨⟨m, l'.regions⟩, false⟩, ⟨a, n, headed⟩ :: s.live, none⟩ := by
    rw [step_ok h.running ran, Call.record, if_neg null, gives, keeps]
    rfl
  refine ⟨⟨next ▸ h.given granted.stocked granted.alike granted.frame granted.free granted.region
    wrote pos granted.fits header, ?_⟩, next⟩
  intro b mem _ x inside _
  have notfree := h.payload_out mem inside
  rw [next]
  exact (wrote x fun hit => notfree (granted.free hit)).trans (granted.frame x notfree)

/-! ### The functions that give a block -/

/-- What `malloc` and `memalign` make of the block that they were granted. -/
theorem label_eq (granted : Granted W s l' a n) (size : Nat) :
    Heap.label (⟨l', false⟩, a) size = (⟨⟨putWord l'.mem a size, l'.regions⟩, false⟩, a + 4) := by
  have low := granted.low
  have high := granted.high
  rw [Heap.label, if_neg (by simp only; omega)]
  simp only [Heap.setMem, Heap.mem]
  rw [Nat.mod_eq_of_lt (by omega)]

/-- The header is in the cells of its block. -/
theorem Granted.header (granted : Granted W s l' a n) (four : 4 ≤ n) {x : Nat}
    (notin : x ∉ block (cellsOf a n)) : putWord l'.mem a n x = l'.mem x := by
  refine putWord_of_notMem fun inside => notin ?_
  have fits := granted.fits
  have low := inside.1
  have high := inside.2
  rw [cellsOf, alignDown, alignUp_eq fits]
  constructor
  · simp only
    omega
  · simp only [stop]
    omega

/-- A block with a header. -/
theorem fine_of_labelled (h : Sound W regions s) (granted : Granted W s l' a (size + 4))
    (small : size + 4 < 2 ^ 32)
    (ran : c.exec s.heap = .ok (Heap.label (⟨l', false⟩, a) (size + 4)))
    (gives : c.gives (a + 4) = some ⟨a, size + 4, true⟩)
    (keeps : (s.live.filter fun b => c.returns (a + 4) ≠ some b.key) = s.live) :
    Fine W regions s c ∧ step s c =
      ⟨⟨⟨putWord l'.mem a (size + 4), l'.regions⟩, false⟩, ⟨a, size + 4, true⟩ :: s.live, none⟩ := by
  rw [label_eq granted] at ran
  exact fine_of_granted true h granted (fun _ => granted.header (Nat.le_add_left 4 size)) (by omega)
    (fun _ => ⟨Nat.le_add_left 4 size, word_putWord small⟩) ran (by omega) gives keeps

theorem malloc_spec (h : Sound W regions s) (fits : size + 11 < 2 ^ 32) :
    (malloc s.heap size = .ok (s.heap, 0) ∧ ∀ r ∈ s.heap.lmm.regions, ∀ b,
      ¬rowSuits (alignUp (size + 4)) ((W \ out s.live) ∩ r.bytes) b) ∨
    ∃ l' a, malloc s.heap size = .ok (Heap.label (⟨l', false⟩, a) (size + 4)) ∧
      Granted W s l' a (size + 4) ∧
      Allots (rowSuits (alignUp (size + 4))) (·.lacks 0) (⟨·, alignUp (size + 4)⟩) s.heap.lmm l'
        (W \ out s.live) a := by
  have wrap : (size + 4) % 2 ^ 32 = size + 4 := Nat.mod_eq_of_lt (by omega)
  rcases alloc_granted h (n := size + 4) (by omega) (by omega) with ⟨none, all⟩ |
    ⟨l', a, got, granted, allots⟩
  · refine .inl ⟨?_, all⟩
    simp only [malloc, wrap, allocWith_none (alloc · (size + 4) 0) h.idle none]
    rfl
  · refine .inr ⟨l', a, ?_, granted, allots⟩
    simp only [malloc, wrap, allocWith_eq (alloc · (size + 4) 0) h.idle got]
    rfl

theorem fine_malloc (h : Sound W regions s) (fits : size + 11 < 2 ^ 32) :
    Fine W regions s (.malloc size) := by
  rcases malloc_spec h fits with ⟨none, -⟩ | ⟨l', a, got, granted, -⟩
  · exact fine_of_none h none rfl
  · exact (fine_of_labelled (c := .malloc size) h granted (by omega) got rfl (filter_none _)).1

theorem memalign_spec {alignment : Nat} (size : Nat) (h : Sound W regions s)
    (small : alignment ≤ 2 ^ 31) (fits : size + 4 < 2 ^ 32) :
    ∃ shift, alignment ≤ 2 ^ shift ∧ (∀ j, j < shift → 2 ^ j < alignment) ∧ shift ≤ 31 ∧
    ((memalign s.heap alignment size = .ok (s.heap, 0) ∧ ∀ r ∈ s.heap.lmm.regions, ∀ b,
        ¬(alignedRequest (size + 4) shift ((2 ^ shift + 2 ^ 32 - 4) % 2 ^ 32)).Suits
          ((W \ out s.live) ∩ r.bytes) b) ∨
      ∃ l' a, memalign s.heap alignment size = .ok (Heap.label (⟨l', false⟩, a) (size + 4)) ∧
        Granted W s l' a (size + 4) ∧
        Allots (alignedRequest (size + 4) shift ((2 ^ shift + 2 ^ 32 - 4) % 2 ^ 32)).Suits
          (·.lacks 0) (cellsOf · (size + 4)) s.heap.lmm l' (W \ out s.live) a) := by
  have wrap : (size + 4) % 2 ^ 32 = size + 4 := Nat.mod_eq_of_lt fits
  obtain ⟨shift, found, enough, high, least⟩ := findShift_least small
  refine ⟨shift, enough, least, high, ?_⟩
  generalize hofs : (2 ^ shift + 2 ^ 32 - 4) % 2 ^ 32 = ofs
  have ran : memalign s.heap alignment size =
      (s.heap.allocWith (allocAligned · (size + 4) 0 shift ofs) >>=
        fun got => pure (Heap.label got (size + 4))) := by
    simp only [memalign, found, wrap, bind, Except.bind, hofs]
  rw [ran]
  rcases allocAligned_granted ofs h (n := size + 4) (by omega) high with ⟨none, all⟩ |
    ⟨l', a, got, granted, allots⟩
  · refine .inl ⟨?_, all⟩
    rw [allocWith_none (allocAligned · (size + 4) 0 shift ofs) h.idle none]
    rfl
  · refine .inr ⟨l', a, ?_, granted, allots⟩
    rw [allocWith_eq (allocAligned · (size + 4) 0 shift ofs) h.idle got]
    rfl

theorem fine_memalign {alignment : Nat} (h : Sound W regions s) (small : alignment ≤ 2 ^ 31)
    (fits : size + 4 < 2 ^ 32) : Fine W regions s (.memalign alignment size) := by
  obtain ⟨shift, -, -, -, ⟨none, -⟩ | ⟨l', a, got, granted, -⟩⟩ :=
    memalign_spec size h small fits
  · exact fine_of_none h none rfl
  · exact (fine_of_labelled (c := .memalign alignment size) h granted fits got rfl (filter_none _)).1

/-- `calloc` clears what `malloc` gave. -/
theorem fine_calloc {nelt eltsize : Nat} (h : Sound W regions s)
    (fits : nelt * eltsize + 11 < 2 ^ 32) :
    Fine W regions s (.calloc nelt eltsize) ∧
      ∀ b ∈ (step s (.calloc nelt eltsize)).live, b ∉ s.live → ∀ x ∈ b.payload,
        (step s (.calloc nelt eltsize)).heap.mem x = 0 := by
  have wrap : nelt * eltsize % 2 ^ 32 = nelt * eltsize := Nat.mod_eq_of_lt (by omega)
  rcases malloc_spec h fits with ⟨none, -⟩ | ⟨l', a, got, granted, -⟩
  · have ran : calloc s.heap nelt eltsize = .ok (s.heap, 0) := by
      simp only [calloc, wrap, none, bind, Except.bind]
      rfl
    have fine : Fine W regions s (.calloc nelt eltsize) := fine_of_none h ran rfl
    refine ⟨fine, fun b mem new => absurd ?_ new⟩
    have same := step_ok (c := .calloc nelt eltsize) h.running ran
    rw [same, Call.record, if_pos rfl] at mem
    exact (List.mem_filter.mp mem).1
  · have low := granted.low
    have bounds := granted.fits
    have ran : calloc s.heap nelt eltsize =
        .ok (⟨⟨memset (putWord l'.mem a (nelt * eltsize + 4)) (a + 4) 0 (nelt * eltsize),
          l'.regions⟩, false⟩, a + 4) := by
      rw [label_eq granted] at got
      simp only [calloc, wrap, got, bind, Except.bind]
      rfl
    have own : ∀ x, x ∉ block (cellsOf a (nelt * eltsize + 4)) → ¬(a + 4 ≤ x ∧
        x < a + 4 + nelt * eltsize) := by
      intro x notin inside
      apply notin
      rw [cellsOf, alignDown, alignUp_eq bounds]
      constructor
      · simp only
        omega
      · simp only [stop]
        omega
    have header : word (memset (putWord l'.mem a (nelt * eltsize + 4)) (a + 4) 0 (nelt * eltsize)) a =
        nelt * eltsize + 4 := by
      refine (word_congr fun x inside => if_neg fun hit => ?_).trans (word_putWord (by omega))
      have := inside.2
      have := hit.1
      omega
    have fine := fine_of_granted (c := .calloc nelt eltsize) true h granted
      (fun x notin => (if_neg (own x notin)).trans (granted.header (by omega) notin)) (by omega)
      (fun _ => ⟨by omega, header⟩) ran (by omega) rfl (filter_none _)
    refine ⟨fine.1, fun b mem new x inside => ?_⟩
    rw [fine.2] at mem ⊢
    rcases List.mem_cons.mp mem with rfl | mem
    · simp only [Block.payload, Block.pointer, if_true] at inside
      exact if_pos ⟨inside.1, by have := inside.2; omega⟩
    · exact absurd mem new

theorem smalloc_spec (h : Sound W regions s) (pos : 0 < size) (fits : size + 7 < 2 ^ 32) :
    (smalloc s.heap size = .ok (s.heap, 0) ∧ ∀ r ∈ s.heap.lmm.regions, ∀ b,
      ¬rowSuits (alignUp size) ((W \ out s.live) ∩ r.bytes) b) ∨
    ∃ l' a, smalloc s.heap size = .ok (⟨l', false⟩, a) ∧ Granted W s l' a size ∧
      Allots (rowSuits (alignUp size)) (·.lacks 0) (⟨·, alignUp size⟩) s.heap.lmm l'
        (W \ out s.live) a := by
  rcases alloc_granted h pos fits with ⟨none, all⟩ | ⟨l', a, got, granted, allots⟩
  · exact .inl ⟨allocWith_none (alloc · size 0) h.idle none, all⟩
  · exact .inr ⟨l', a, allocWith_eq (alloc · size 0) h.idle got, granted, allots⟩

/-- A block without a header. -/
theorem fine_of_plain (h : Sound W regions s) (granted : Granted W s l' a size) (pos : 0 < size)
    (ran : c.exec s.heap = .ok (⟨l', false⟩, a)) (gives : c.gives a = some ⟨a, size, false⟩)
    (keeps : (s.live.filter fun b => c.returns a ≠ some b.key) = s.live) : Fine W regions s c := by
  have low := granted.low
  exact (fine_of_granted false h granted (m := l'.mem) (fun _ _ => rfl) pos (fun no => by cases no) ran
    (by omega) gives keeps).1

theorem fine_smalloc (h : Sound W regions s) (pos : 0 < size) (fits : size + 7 < 2 ^ 32) :
    Fine W regions s (.smalloc size) := by
  rcases smalloc_spec h pos fits with ⟨none, -⟩ | ⟨l', a, got, granted, -⟩
  · exact fine_of_none h none rfl
  · exact fine_of_plain h granted pos got rfl (filter_none _)

theorem smemalign_spec {alignment : Nat} (size : Nat) (h : Sound W regions s)
    (small : alignment ≤ 2 ^ 31) (pos : 0 < size) :
    ∃ shift, alignment ≤ 2 ^ shift ∧ (∀ j, j < shift → 2 ^ j < alignment) ∧ shift ≤ 31 ∧
    ((smemalign s.heap alignment size = .ok (s.heap, 0) ∧ ∀ r ∈ s.heap.lmm.regions, ∀ b,
        ¬(alignedRequest size shift 0).Suits ((W \ out s.live) ∩ r.bytes) b) ∨
      ∃ l' a, smemalign s.heap alignment size = .ok (⟨l', false⟩, a) ∧ Granted W s l' a size ∧
        Allots (alignedRequest size shift 0).Suits (·.lacks 0) (cellsOf · size) s.heap.lmm l'
          (W \ out s.live) a) := by
  obtain ⟨shift, found, enough, high, least⟩ := findShift_least small
  refine ⟨shift, enough, least, high, ?_⟩
  have ran : smemalign s.heap alignment size =
      s.heap.allocWith (allocAligned · size 0 shift 0) := by
    simp only [smemalign, found, bind, Except.bind]
  rw [ran]
  rcases allocAligned_granted 0 h pos high with ⟨none, all⟩ |
    ⟨l', a, got, granted, allots⟩
  · exact .inl ⟨allocWith_none (allocAligned · size 0 shift 0) h.idle none, all⟩
  · exact .inr ⟨l', a, allocWith_eq (allocAligned · size 0 shift 0) h.idle got, granted, allots⟩

theorem fine_smemalign {alignment : Nat} (h : Sound W regions s) (small : alignment ≤ 2 ^ 31)
    (pos : 0 < size) : Fine W regions s (.smemalign alignment size) := by
  obtain ⟨shift, -, -, -, ⟨none, -⟩ | ⟨l', a, got, granted, -⟩⟩ :=
    smemalign_spec size h small pos
  · exact fine_of_none h none rfl
  · exact fine_of_plain h granted pos got rfl (filter_none _)

end OsKernel.Malloc
