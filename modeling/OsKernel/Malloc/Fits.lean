/-
Which block a call gives, in every state that the heap can reach.
-/

import OsKernel.Malloc.Runs

namespace OsKernel.Malloc

open OsKernel.Words OsKernel.Lmm OsKernel.Range OsKernel.Run

variable {W S : Set Nat} {regions : List Region} {s : State} {b : Block} {cs : List Call} {m : Mem}
  {a n size p : Nat} {l' : Manager}

/-- The pointer is null when no address suits; else it lies `offset` behind the least address that
suits in the first region that has one. -/
def FirstFit (suits : Set Nat → Nat → Prop) (S : Set Nat) (regions : List Region)
    (offset p : Nat) : Prop :=
  (p = 0 ∧ ∀ r ∈ regions, ∀ a, ¬suits (S ∩ r.bytes) a) ∨
    ∃ a left reg right, p = a + offset ∧ p ≠ 0 ∧ regions = left ++ reg :: right ∧
      (∀ r ∈ left, ∀ b, ¬suits (S ∩ r.bytes) b) ∧ suits (S ∩ reg.bytes) a ∧
      ∀ b, suits (S ∩ reg.bytes) b → a ≤ b

variable {suits : Set Nat → Nat → Prop} {chunk : Nat → Range}

theorem Allots.firstFit {l : Manager} (offset : Nat)
    (allots : Allots suits (·.lacks 0) chunk l l' S a) (low : 0 < a) :
    FirstFit suits S l.regions offset (a + offset) := by
  obtain ⟨left, reg, right, split, -, none, suits, least, -⟩ := allots.first
  exact .inr ⟨a, left, reg, right, rfl, by omega, split,
    fun r mem => none r mem (lacks_zero r), suits, least⟩

/-- What suits for one reason suits for the other. -/
theorem FirstFit.congr {suits' : Set Nat → Nat → Prop} {offset : Nat}
    (same : ∀ r ∈ regions, ∀ a, suits (S ∩ r.bytes) a ↔ suits' (S ∩ r.bytes) a)
    (h : FirstFit suits S regions offset p) : FirstFit suits' S regions offset p := by
  rcases h with ⟨null, none⟩ | ⟨a, left, reg, right, pointer, nonnull, split, none, fits, least⟩
  · exact .inl ⟨null, fun r mem a fits => none r mem a ((same r mem a).mpr fits)⟩
  · have memr : reg ∈ regions := split ▸ by simp
    refine .inr ⟨a, left, reg, right, pointer, nonnull, split, fun r mem b fits => ?_,
      (same reg memr a).mp fits, fun b fits => least b ((same reg memr b).mpr fits)⟩
    exact none r mem b ((same r (split ▸ List.mem_append_left _ mem) b).mpr fits)

/-! ### `malloc` and `smalloc` -/

/-- `malloc` and `smalloc` give the first row of free bytes that is long enough, the header and
the rounding included, and fail only when there is none. -/
theorem rows_first_fit (start : Sound W regions s) (legal : StepsMeet step Legal s cs) :
    (size + 11 < 2 ^ 32 → ∃ h p, malloc (run step s cs).heap size = .ok (h, p) ∧
      FirstFit (rowSuits ((size + 11) / 8 * 8)) (W \ out (run step s cs).live)
        (run step s cs).heap.lmm.regions 4 p) ∧
    (0 < size ∧ size + 7 < 2 ^ 32 → ∃ h p, smalloc (run step s cs).heap size = .ok (h, p) ∧
      FirstFit (rowSuits ((size + 7) / 8 * 8)) (W \ out (run step s cs).live)
        (run step s cs).heap.lmm.regions 0 p) := by
  have sound := (sound_along start legal).last
  constructor
  · intro fits
    have rounded : alignUp (size + 4) = (size + 11) / 8 * 8 := alignUp_eq (by omega)
    rcases malloc_spec sound fits with ⟨ran, none⟩ | ⟨l', a, ran, granted, allots⟩
    · exact ⟨_, _, ran, .inl ⟨rfl, rounded ▸ none⟩⟩
    · have low := granted.low
      rw [label_eq granted] at ran
      exact ⟨_, _, ran, rounded ▸ Allots.firstFit 4 allots (by omega)⟩
  · rintro ⟨pos, fits⟩
    have rounded : alignUp size = (size + 7) / 8 * 8 := alignUp_eq fits
    rcases smalloc_spec sound pos fits with ⟨ran, none⟩ | ⟨l', a, ran, granted, allots⟩
    · exact ⟨_, _, ran, .inl ⟨rfl, rounded ▸ none⟩⟩
    · have low := granted.low
      exact ⟨_, _, ran, rounded ▸ Allots.firstFit 0 allots (by omega)⟩

theorem rows_first_fit_guest :
    ∃ h p, malloc (run step guestHeap [.malloc 10, .malloc 20, .free 0x200004]).heap 12 =
        .ok (h, p) ∧
      FirstFit (rowSuits 16)
        (Set.Ico 0x200000 userMemStart \
          out (run step guestHeap [.malloc 10, .malloc 20, .free 0x200004]).live)
        (run step guestHeap [.malloc 10, .malloc 20, .free 0x200004]).heap.lmm.regions 4 p :=
  (rows_first_fit sound_guestHeap (by decide +kernel)).1 (by decide)

/-! ### `memalign` and `smemalign` -/

/-- `n` free bytes in a row from `a` on, where `offset` bytes behind `a` there is a multiple of
`2 ^ shift`. -/
def alignedSuits (shift offset n : Nat) (S : Set Nat) (a : Nat) : Prop :=
  2 ^ shift ∣ a + offset ∧ block ⟨a, n⟩ ⊆ S

/-- The residue that is asked for is the one behind which the offset reaches a multiple. -/
theorem residue_iff {shift offset : Nat} (small : shift ≤ 31) (four : offset ≤ 4) :
    a ≡ (2 ^ shift + 2 ^ 32 - offset) % 2 ^ 32 [MOD 2 ^ shift] ↔ 2 ^ shift ∣ a + offset := by
  have whole : (2 : Nat) ^ 32 = 2 ^ shift * 2 ^ (32 - shift) := by
    rw [← pow_add]
    congr 1
    omega
  have dvd : 2 ^ shift ∣ 2 ^ 32 := ⟨_, whole⟩
  have sum : (2 ^ shift + 2 ^ 32 - offset) + offset ≡ 0 [MOD 2 ^ shift] := by
    rw [Nat.sub_add_cancel (by omega)]
    exact Nat.modEq_zero_iff_dvd.mpr (Nat.dvd_add (Nat.dvd_refl _) dvd)
  have reduce : (2 ^ shift + 2 ^ 32 - offset) % 2 ^ 32 ≡ 2 ^ shift + 2 ^ 32 - offset
      [MOD 2 ^ shift] := Nat.ModEq.of_dvd dvd (Nat.mod_modEq _ _)
  rw [← Nat.modEq_zero_iff_dvd]
  constructor
  · intro same
    exact ((same.trans reduce).add_right offset).trans sum
  · intro multiple
    exact (Nat.ModEq.add_right_cancel' offset (multiple.trans sum.symm)).trans reduce.symm

/-- The request is for a free row with the alignment. -/
theorem suits_iff {shift offset ofs : Nat} (bounds : ∀ x ∈ W, 8 ≤ x ∧ x < 2 ^ 31) (pos : 0 < n)
    (residue : ∀ a, a ≡ ofs [MOD 2 ^ shift] ↔ 2 ^ shift ∣ a + offset) (sub : S ⊆ W) :
    (alignedRequest n shift ofs).Suits S a ↔ alignedSuits shift offset n S a := by
  constructor
  · rintro ⟨admits, free⟩
    exact ⟨(residue a).mp admits.residue, free⟩
  · rintro ⟨multiple, free⟩
    have final : a + n - 1 ∈ block ⟨a, n⟩ := by
      constructor
      · simp only
        omega
      · simp only [stop]
        omega
    have last := bounds _ (sub (free final))
    exact ⟨⟨Nat.zero_le a, by simp only [alignedRequest]; omega, (residue a).mpr multiple⟩, free⟩

/-- What `lmm_alloc_aligned` gives, as a pointer `offset` behind the block. -/
theorem aligned_fit {shift offset ofs : Nat} (sound : Sound W regions s) (pos : 0 < n)
    (residue : ∀ a, a ≡ ofs [MOD 2 ^ shift] ↔ 2 ^ shift ∣ a + offset)
    (allots : Allots (alignedRequest n shift ofs).Suits (·.lacks 0) (cellsOf · n) s.heap.lmm l'
      (W \ out s.live) a) (low : 0 < a) :
    2 ^ shift ∣ a + offset ∧
      FirstFit (alignedSuits shift offset n) (W \ out s.live) s.heap.lmm.regions offset
        (a + offset) := by
  refine ⟨?_, (Allots.firstFit offset allots low).congr fun r _ a =>
    suits_iff sound.bounds pos residue fun x mem => mem.1.1⟩
  obtain ⟨left, reg, right, -, -, -, suits, -⟩ := allots.first
  exact (residue a).mp suits.1.residue

/-- Two shifts that are the least for one alignment. -/
theorem shift_unique {alignment k k' : Nat} (enough : alignment ≤ 2 ^ k)
    (least : ∀ j, j < k → 2 ^ j < alignment) (enough' : alignment ≤ 2 ^ k')
    (least' : ∀ j, j < k' → 2 ^ j < alignment) : k = k' := by
  rcases Nat.lt_trichotomy k k' with lt | same | lt
  · exact absurd (least' k lt) (not_lt.mpr enough)
  · exact same
  · exact absurd (least k' lt) (not_lt.mpr enough')

/-- `memalign` and `smemalign` give the first free row with the alignment, and fail only when there
is none. The alignment is the least power of two that is not below the one asked for. -/
theorem aligned_first_fit {alignment : Nat} (start : Sound W regions s)
    (legal : StepsMeet step Legal s cs) (small : alignment ≤ 2 ^ 31) (size : Nat) :
    ∃ shift, alignment ≤ 2 ^ shift ∧ (∀ j, j < shift → 2 ^ j < alignment) ∧
      (size + 4 < 2 ^ 32 →
        ∃ h p, memalign (run step s cs).heap alignment size = .ok (h, p) ∧ 2 ^ shift ∣ p ∧
          FirstFit (alignedSuits shift 4 (size + 4)) (W \ out (run step s cs).live)
            (run step s cs).heap.lmm.regions 4 p) ∧
      (0 < size →
        ∃ h p, smemalign (run step s cs).heap alignment size = .ok (h, p) ∧ 2 ^ shift ∣ p ∧
          FirstFit (alignedSuits shift 0 size) (W \ out (run step s cs).live)
            (run step s cs).heap.lmm.regions 0 p) := by
  have sound := (sound_along start legal).last
  obtain ⟨shift, -, enough, high, least⟩ := findShift_least small
  have plain : ∀ a, a ≡ 0 [MOD 2 ^ shift] ↔ 2 ^ shift ∣ a + 0 := fun a =>
    Nat.modEq_zero_iff_dvd
  have four := fun a => residue_iff (a := a) high (le_refl 4)
  refine ⟨shift, enough, least, fun fits => ?_, fun pos => ?_⟩
  · obtain ⟨shift', enough', least', -, outcome⟩ := memalign_spec size sound small fits
    obtain rfl := shift_unique enough least enough' least'
    rcases outcome with ⟨ran, none⟩ | ⟨l', a, ran, granted, allots⟩
    · refine ⟨_, _, ran, Nat.dvd_zero _, .inl ⟨rfl, fun r mem a suits => none r mem a ?_⟩⟩
      exact (suits_iff sound.bounds (by omega) four fun x mem => mem.1.1).mpr suits
    · have low := granted.low
      rw [label_eq granted] at ran
      exact ⟨_, _, ran, aligned_fit sound (by omega) four allots (by omega)⟩
  · obtain ⟨shift', enough', least', -, outcome⟩ := smemalign_spec size sound small pos
    obtain rfl := shift_unique enough least enough' least'
    rcases outcome with ⟨ran, none⟩ | ⟨l', a, ran, granted, allots⟩
    · refine ⟨_, _, ran, Nat.dvd_zero _, .inl ⟨rfl, fun r mem a suits => none r mem a ?_⟩⟩
      exact (suits_iff sound.bounds pos plain fun x mem => mem.1.1).mpr suits
    · have low := granted.low
      exact ⟨_, _, ran, aligned_fit sound pos plain allots (by omega)⟩

theorem aligned_first_fit_guest :
    ∃ shift, 24 ≤ 2 ^ shift ∧
      (∃ h p, memalign (run step guestHeap [.malloc 10]).heap 24 3 = .ok (h, p) ∧ 2 ^ shift ∣ p) ∧
      ∃ h p, smemalign (run step guestHeap [.malloc 10]).heap 24 3 = .ok (h, p) ∧
        2 ^ shift ∣ p := by
  obtain ⟨shift, enough, -, headed, plain⟩ :=
    aligned_first_fit sound_guestHeap
      (show StepsMeet step Legal guestHeap [.malloc 10] by decide +kernel)
      (show 24 ≤ 2 ^ 31 by decide) 3
  obtain ⟨h, p, ran, aligned, -⟩ := headed (by decide)
  obtain ⟨h', p', ran', aligned', -⟩ := plain (by decide)
  exact ⟨shift, enough, ⟨h, p, ran, aligned⟩, h', p', ran', aligned'⟩

/-! ### What a new block holds -/

/-- `realloc` takes the bytes along that fit, and leaves everything as it is when it finds no room;
what `calloc` gives is zero. -/
theorem contents_given (start : Sound W regions s) (legal : StepsMeet step Legal s cs) :
    (∀ b ∈ (run step s cs).live, b.headed = true → size + 11 < 2 ^ 32 →
      ∃ h p, realloc (run step s cs).heap b.pointer size = .ok (h, p) ∧
        (p = 0 → h = (run step s cs).heap) ∧
        (p ≠ 0 → ∀ i, i < size → b.pointer + i < b.addr + b.size →
          h.mem (p + i) = (run step s cs).heap.mem (b.pointer + i))) ∧
    ∀ nelt eltsize, nelt * eltsize + 11 < 2 ^ 32 →
      ∀ b ∈ (step (run step s cs) (.calloc nelt eltsize)).live, b ∉ (run step s cs).live →
        ∀ x ∈ b.payload, (step (run step s cs) (.calloc nelt eltsize)).heap.mem x = 0 := by
  have sound := (sound_along start legal).last
  constructor
  · intro b mem headed fits
    rcases realloc_spec sound fits mem headed with ⟨ran, -⟩ | ⟨a, m', regions', ran, low, -, -, copies, -⟩
    · exact ⟨_, _, ran, fun _ => rfl, fun nonnull => absurd rfl nonnull⟩
    · exact ⟨_, _, ran, fun null => by omega, fun _ => copies⟩
  · intro nelt eltsize fits b mem new x inside
    exact (fine_calloc sound fits).2 b mem new x inside

theorem contents_given_guest :
    ∃ h p, realloc (run step guestHeap [.malloc 10, .store 0x200004 7]).heap 0x200004 40 =
        .ok (h, p) ∧
      (p ≠ 0 → ∀ i, i < 40 → 0x200004 + i < 0x200000 + 14 →
        h.mem (p + i) =
          (run step guestHeap [.malloc 10, .store 0x200004 7]).heap.mem (0x200004 + i)) := by
  have legal : StepsMeet step Legal guestHeap [.malloc 10, .store 0x200004 7] := by decide +kernel
  obtain ⟨h, p, ran, -, copies⟩ := (contents_given sound_guestHeap legal).1
    ⟨0x200000, 14, true⟩ (by decide +kernel) rfl (show 40 + 11 < 2 ^ 32 by decide)
  exact ⟨h, p, ran, copies⟩

/-! ### Sizes that wrap -/

/-- Region `reg` is the first one with a node. -/
def FirstStocked (regions : List Region) (reg : Region) : Prop :=
  ∃ left right, regions = left ++ reg :: right ∧ (∀ r ∈ left, r.nodes = 0) ∧ reg.nodes ≠ 0

/-- A request for no bytes takes the first node there is, and leaves it in its list. -/
theorem eachRegion_zero (holds : ∀ reg ∈ regions, Holds m reg (S ∩ reg.bytes))
    (room : ∃ reg ∈ regions, reg.nodes ≠ 0) :
    ∃ reg, FirstStocked regions reg ∧
      eachRegion (·.lacks 0) (allocNodes 0 rounds · none) m regions =
        .ok (some (m, regions, reg.nodes)) := by
  have fuel : rounds = 2 ^ 29 + 1 := rfl
  induction regions with
  | nil =>
      obtain ⟨reg, mem, -⟩ := room
      cases mem
  | cons reg regions ih =>
      have here := holds reg List.mem_cons_self
      obtain ⟨l, laid, free, -⟩ := id here
      rcases laid.head with ⟨-, empty⟩ | ⟨r, rest, rfl, nodes, null⟩
      · have later : ∃ reg ∈ regions, reg.nodes ≠ 0 := by
          obtain ⟨reg', mem, nonnull⟩ := room
          rcases List.mem_cons.mp mem with rfl | mem
          · exact absurd empty nonnull
          · exact ⟨reg', mem, nonnull⟩
        obtain ⟨reg', ⟨left, right, split, earlier, nonnull⟩, found⟩ :=
          ih (fun r mem => holds r (List.mem_cons_of_mem reg mem)) later
        have first : FirstStocked (reg :: regions) reg' :=
          ⟨reg :: left, right, by rw [split, List.cons_append],
            List.forall_mem_cons.mpr ⟨empty, earlier⟩, nonnull⟩
        refine ⟨reg', first, ?_⟩
        have none : allocNodes 0 rounds ⟨m, reg⟩ none = .ok none := by
          rw [fuel, allocNodes]
          simp only [At.deref, empty, if_true]
          rfl
        exact eachRegion_cons_none here.sane (.inr none) found
      · have nonnull : reg.nodes ≠ 0 := nodes ▸ null
        have first : Laid m reg ([] ++ r :: rest) := laid
        have sane := Laid.sane_node (s := ⟨m, reg⟩) first
        have eight := laid.eight_le List.mem_cons_self
        have bound := reg.max_lt
        have within := (laid.within r List.mem_cons_self).2
        have size : At.size ⟨m, reg⟩ r.start = r.size := laid.chain.2.2.1
        have wrap : (r.start + 0) % 2 ^ 32 = r.start := by
          simp only [stop] at within
          exact Nat.mod_eq_of_lt (by omega)
        -- The node is split in front of its first byte: it is written over itself.
        have same : takeHead ⟨m, reg⟩ none r.start 0 = ⟨m, reg⟩ := by
          have next : At.setNext ⟨m, reg⟩ r.start (At.next ⟨m, reg⟩ r.start) = ⟨m, reg⟩ := by
            rw [At.setNext, At.next, putWord_word]
          have sized : At.setSize ⟨m, reg⟩ r.start (At.size ⟨m, reg⟩ r.start) = ⟨m, reg⟩ := by
            rw [At.setSize, At.size, putWord_word]
          rw [takeHead, if_pos (by omega)]
          simp only [wrap, next, Nat.sub_zero, sized, At.assign]
          have self : At.setNodes ⟨m, reg⟩ reg.nodes = ⟨m, reg⟩ := rfl
          rwa [nodes] at self
        refine ⟨reg, ⟨[], regions, rfl, by simp, nonnull⟩, ?_⟩
        have found : allocNodes 0 rounds ⟨m, reg⟩ none = .ok (some (⟨m, reg⟩, r.start)) := by
          rw [fuel, allocNodes]
          simp only [At.deref, nodes, if_neg null, check_of sane, Nat.zero_le, if_true, same,
            check_of, Nat.sub_zero]
          rfl
        rw [nodes]
        exact eachRegion_cons_some (·.lacks 0) (allocNodes 0 rounds · none) here.sane (lacks_zero reg)
          found

/-- For the last sizes below 2 ^ 32 - 4 the rounding wraps to 0: `malloc` gives the first free node
of the first region that has one. The node stays free, and its header breaks the list. -/
theorem malloc_wraps (start : Sound W regions s) (legal : StepsMeet step Legal s cs)
    (low : 2 ^ 32 ≤ size + 11) (high : size + 4 < 2 ^ 32)
    (room : ∃ reg ∈ (run step s cs).heap.lmm.regions, reg.nodes ≠ 0) :
    ∃ h reg, FirstStocked (run step s cs).heap.lmm.regions reg ∧
      malloc (run step s cs).heap size = .ok (h, reg.nodes + 4) ∧
      h.lmm.regions = (run step s cs).heap.lmm.regions ∧ ¬∃ l, Laid h.mem reg l := by
  have sound := (sound_along start legal).last
  obtain ⟨reg, first, found⟩ := eachRegion_zero sound.stocked.holds room
  obtain ⟨left, right, split, -, nonnull⟩ := id first
  have mem : reg ∈ (run step s cs).heap.lmm.regions := split ▸ by simp
  have wrap : (size + 4) % 2 ^ 32 = size + 4 := Nat.mod_eq_of_lt high
  have zero : alignUp (size + 4) = 0 := by
    rw [alignUp]
    omega
  obtain ⟨l, laid, -, -⟩ := sound.stocked.holds reg mem
  have node := laid.first_node nonnull
  have maxlt := reg.max_lt
  have max8 := reg.max_aligned
  have got : alloc (run step s cs).heap.lmm (size + 4) 0 =
      .ok ((run step s cs).heap.lmm, reg.nodes) := by
    rw [alloc, check_of (by omega), zero]
    change (eachRegion (·.lacks 0) (allocNodes 0 rounds · none) (run step s cs).heap.mem
      (run step s cs).heap.lmm.regions >>= fun found => _) = _
    rw [found]
    rfl
  have pointer : (reg.nodes + 4) % 2 ^ 32 = reg.nodes + 4 := Nat.mod_eq_of_lt (by omega)
  refine ⟨(run step s cs).heap.setMem (putWord (run step s cs).heap.mem reg.nodes (size + 4)), reg,
    first, ?_, rfl, ?_⟩
  · have idle := sound.idle
    simp only [malloc, wrap]
    rw [allocWith_eq (alloc · (size + 4) 0) idle got]
    change Except.ok (Heap.label (⟨(run step s cs).heap.lmm, false⟩, reg.nodes) (size + 4)) = _
    rw [Heap.label, if_neg nonnull, pointer, ← idle]
  · rintro ⟨l', laid'⟩
    have next : word (putWord (run step s cs).heap.mem reg.nodes (size + 4)) reg.nodes = size + 4 :=
      word_putWord high
    have below : word (putWord (run step s cs).heap.mem reg.nodes (size + 4)) reg.nodes < reg.max :=
      laid'.next_lt nonnull
    omega

theorem malloc_wraps_guest :
    ∃ h reg, FirstStocked (run step guestHeap [.malloc 10]).heap.lmm.regions reg ∧
      malloc (run step guestHeap [.malloc 10]).heap (2 ^ 32 - 8) = .ok (h, reg.nodes + 4) ∧
      h.lmm.regions = (run step guestHeap [.malloc 10]).heap.lmm.regions ∧
      ¬∃ l, Laid h.mem reg l :=
  malloc_wraps sound_guestHeap (by decide +kernel) (by decide) (by decide) (by decide +kernel)

end OsKernel.Malloc
