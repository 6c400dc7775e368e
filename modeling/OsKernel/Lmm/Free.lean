/-
`lmm_free`: the block goes back between its neighbours, melted with those that it touches.
-/

import OsKernel.Lmm.Regions

namespace OsKernel.Lmm

open OsKernel.Words OsKernel.Range

variable {s : At} {before after : List Range} {r : Range} {m : Mem} {reg : Region} {S : Set Nat}
  {node n p q : Nat}

/-! ### The place of a node -/

/-- The last node before the place, or 0. -/
def lastNode (before : List Range) : Nat := (placeAfter before).getD 0

/-- The first node behind the place, or 0. -/
def headNode (after : List Range) : Nat := (after.head?.map start).getD 0

theorem Seg.headNode (h : Seg m p after 0) : headNode after = p := by
  cases after with
  | nil => exact h.symm
  | cons r after => exact h.1.symm

/-- The search stops behind the nodes that lie below the address. -/
theorem findPlace_spec (node fuel : Nat) (h : Seg s.mem p (before ++ after) 0)
    (below : ∀ r ∈ before, r.start < node) (above : ∀ r ∈ after, node ≤ r.start)
    (enough : before.length < fuel) (prev : Nat) :
    findPlace node fuel s prev p =
      .ok (if before = [] then prev else lastNode before, headNode after) := by
  induction before generalizing p prev fuel with
  | nil =>
      obtain ⟨fuel, rfl⟩ := Nat.exists_eq_add_of_lt enough
      have head : headNode after = p := Seg.headNode h
      have stops : ¬(p ≠ 0 ∧ p < node) := by
        rintro ⟨null, lt⟩
        cases after with
        | nil => exact null h
        | cons r after =>
            have start : p = r.start := h.1
            have := above r List.mem_cons_self
            omega
      simp only [List.length_nil, Nat.zero_add, findPlace, if_neg stops, head, if_true]
      rfl
  | cons r before ih =>
      obtain ⟨fuel, rfl⟩ : ∃ f, fuel = f + 1 := ⟨fuel - 1, by omega⟩
      obtain ⟨start, null, -, rest⟩ := h
      have first := below r List.mem_cons_self
      have goes : p ≠ 0 ∧ p < node := ⟨start ▸ null, by omega⟩
      have next : s.next p = word s.mem r.start := by rw [start, At.next]
      rw [findPlace, if_pos goes, next, ih fuel rest
        (fun r' mem => below r' (List.mem_cons_of_mem r mem)) (by simpa using enough) p]
      simp only [List.cons_ne_nil, if_false, start]
      cases before with
      | nil => rfl
      | cons r' before =>
          have last : lastNode (r :: r' :: before) = lastNode (r' :: before) := by
            simp [lastNode, placeAfter]
          simp [last]

/-! ### Writing a node -/

/-- A node is written between others. -/
theorem Seg.write (left : Seg s.mem s.reg.nodes before node) (parted : ∀ r ∈ before, r.start + 8 ≤ node)
    (right : Seg s.mem p after 0) (later : ∀ r ∈ after, node + 8 ≤ r.start) (null : node ≠ 0)
    (small : n < 2 ^ 32) (lt : p < 2 ^ 32) :
    Seg ((s.setSize node n).setNext node p).mem ((s.setSize node n).setNext node p).reg.nodes
      (before ++ ⟨node, n⟩ :: after) 0 ∧
    ∀ x, x ∉ Set.Ico node (node + 8) → ((s.setSize node n).setNext node p).mem x = s.mem x := by
  have frame : ∀ x, x ∉ Set.Ico node (node + 8) →
      ((s.setSize node n).setNext node p).mem x = s.mem x := by
    intro x out
    simp only [Set.mem_Ico] at out
    refine (putWord_of_notMem ?_).trans (putWord_of_notMem ?_)
    all_goals
      simp only [Set.mem_Ico]
      omega
  refine ⟨seg_append.mpr ⟨node, left.congr fun r mem x inside => frame x fun hit => ?_,
    rfl, null, (word_putWord_of_apart (.inl (le_refl _))).trans (word_putWord small), ?_⟩, frame⟩
  · have := parted r mem
    have := inside.2
    have := hit.1
    omega
  · simp only
    have next : word ((s.setSize node n).setNext node p).mem node = p := word_putWord lt
    rw [next]
    refine right.congr fun r mem x inside => frame x fun hit => ?_
    have := later r mem
    have := inside.1
    have := hit.2
    omega

theorem Fits.join (h : Fits reg (before ++ after)) (pos : 0 < n)
    (aligned : node % 8 = 0 ∧ n % 8 = 0) (earlier : ∀ q ∈ before, q.stop ≤ node)
    (later : ∀ q ∈ after, node + n ≤ q.start) (low : reg.min ≤ node) (high : node + n ≤ reg.max) :
    Fits reg (join before ⟨node, n⟩ after) := by
  refine ⟨(join_spec (r := ⟨node, n⟩) h.spaced pos earlier later).1, ?_, ?_⟩
  · intro q mem
    have ends := of_mem_join mem
    have start : q.start % 8 = 0 := by
      rcases ends.1 with same | ⟨p, mem, same⟩
      · rw [same]
        exact aligned.1
      · rw [same]
        exact (h.aligned p mem).1
    have stop8 : q.stop % 8 = 0 := by
      rcases ends.2 with same | ⟨p, mem, same⟩
      · rw [same]
        simp only [stop]
        omega
      · rw [same]
        have := h.aligned p mem
        simp only [stop]
        omega
    simp only [stop] at stop8
    exact ⟨start, by omega⟩
  · intro q mem
    have ends := of_mem_join mem
    constructor
    · rcases ends.1 with same | ⟨p, mem, same⟩
      · exact same ▸ low
      · exact same ▸ (h.within p mem).1
    · rcases ends.2 with same | ⟨p, mem, same⟩
      · exact same ▸ high
      · exact same ▸ (h.within p mem).2

/-- A block before others, melted with the next one if they touch. -/
theorem coalesce_right (left : Seg s.mem s.reg.nodes before node)
    (parted : ∀ r ∈ before, r.start + 8 ≤ node) (right : Seg s.mem p after 0)
    (fits : Fits reg after) (later : ∀ r ∈ after, node + n ≤ r.start) (null : node ≠ 0)
    (eight : 8 ≤ n) (lt : node + n < 2 ^ 32) :
    ∃ s', (if p ≠ 0 ∧ (node + n) % 2 ^ 32 ≥ p then
        (s.setSize node ((n + s.size p) % 2 ^ 32)).setNext node
          ((s.setSize node ((n + s.size p) % 2 ^ 32)).next p)
      else (s.setSize node n).setNext node p) = s' ∧
      Seg s'.mem s'.reg.nodes (before ++ joinRight ⟨node, n⟩ after) 0 ∧ s'.reg = s.reg ∧
      ∀ x, x ∉ Set.Ico node (node + 8) → s'.mem x = s.mem x := by
  have apart : ∀ r ∈ after, node + 8 ≤ r.start := fun r mem => by
    have := later r mem
    omega
  have wrap : (node + n) % 2 ^ 32 = node + n := Nat.mod_eq_of_lt lt
  cases after with
  | nil =>
      have nothing : p = 0 := right
      have written := Seg.write left parted right apart null (n := n) (by omega) (nothing ▸ by decide)
      rw [if_neg fun h => h.1 nothing]
      exact ⟨_, rfl, written.1, rfl, written.2⟩
  | cons r after =>
      obtain ⟨start, rnull, size, rest⟩ := id right
      have within := fits.within r List.mem_cons_self
      have first := later r List.mem_cons_self
      have bound := reg.max_lt
      simp only [stop] at within
      by_cases touch : node + n = r.start
      · have sized : s.size p = r.size := start ▸ size
        have total : (n + s.size p) % 2 ^ 32 = n + r.size := by
          rw [sized, Nat.mod_eq_of_lt (by omega)]
        have next : (s.setSize node (n + r.size)).next p = word s.mem r.start := by
          rw [start]
          exact word_putWord_of_apart (.inl (by omega))
        have written := Seg.write left parted rest
          (fun r' mem => apart r' (List.mem_cons_of_mem r mem)) null (n := n + r.size) (by omega)
          (word_lt _ _)
        rw [if_pos ⟨start ▸ rnull, by rw [wrap]; omega⟩, total, next]
        refine ⟨_, rfl, ?_, rfl, written.2⟩
        rw [joinRight, if_pos (show Range.stop ⟨node, n⟩ = r.start from touch)]
        exact written.1
      · have plt : p < 2 ^ 32 := by omega
        have written := Seg.write left parted right apart null (n := n)
          (by omega) plt
        rw [if_neg fun h => by rw [wrap] at h; omega]
        refine ⟨_, rfl, ?_, rfl, written.2⟩
        rw [joinRight, if_neg (show ¬Range.stop ⟨node, n⟩ = r.start from touch)]
        exact written.1

/-- A block that touches the one before it makes that one larger, and melts it with the next one
if they touch. -/
theorem coalesce_left (left : Seg s.mem s.reg.nodes before r.start)
    (parted : ∀ q ∈ before, q.start + 8 ≤ r.start)
    (next : word s.mem r.start = p) (null : r.start ≠ 0) (eight : 8 ≤ r.size)
    (touch : r.start + r.size = node) (right : Seg s.mem p after 0) (fits : Fits reg after)
    (later : ∀ q ∈ after, node + n ≤ q.start) (lt : node + n < 2 ^ 32) :
    ∃ s', (if p ≠ 0 ∧ (node + n) % 2 ^ 32 ≥ p then do
        check ((node + n) % 2 ^ 32 = p)
        pure ((s.setSize r.start ((r.size + (n + s.size p)) % 2 ^ 32)).setNext r.start
          ((s.setSize r.start ((r.size + (n + s.size p)) % 2 ^ 32)).next p))
      else pure (s.setSize r.start ((r.size + n) % 2 ^ 32)) : Outcome At) = .ok s' ∧
      Seg s'.mem s'.reg.nodes (before ++ joinRight ⟨r.start, r.size + n⟩ after) 0 ∧
      s'.reg = s.reg ∧ ∀ x, x ∉ Set.Ico r.start (r.start + 8) → s'.mem x = s.mem x := by
  have apart : ∀ q ∈ after, r.start + 8 ≤ q.start := fun q mem => by
    have := later q mem
    omega
  have wrap : (node + n) % 2 ^ 32 = node + n := Nat.mod_eq_of_lt lt
  have stops : Range.stop ⟨r.start, r.size + n⟩ = node + n := by
    simp only [stop]
    omega
  -- Without a next block to melt with, only the size of the node changes.
  have grows : joinRight ⟨r.start, r.size + n⟩ after = ⟨r.start, r.size + n⟩ :: after →
      Seg (s.setSize r.start ((r.size + n) % 2 ^ 32)).mem s.reg.nodes
        (before ++ joinRight ⟨r.start, r.size + n⟩ after) 0 ∧
      ∀ x, x ∉ Set.Ico r.start (r.start + 8) →
        (s.setSize r.start ((r.size + n) % 2 ^ 32)).mem x = s.mem x := by
    intro joined
    have frame : ∀ x, x ∉ Set.Ico (r.start + 4) (r.start + 8) →
        (s.setSize r.start ((r.size + n) % 2 ^ 32)).mem x = s.mem x :=
      fun x out => putWord_of_notMem out
    have kept : word (s.setSize r.start ((r.size + n) % 2 ^ 32)).mem r.start = p :=
      (word_putWord_of_apart (.inr (le_refl _))).trans next
    rw [joined]
    refine ⟨seg_append.mpr ⟨r.start, left.congr fun q mem x inside => frame x fun hit => ?_, rfl,
      null, ?_, ?_⟩, fun x out => frame x fun hit => out ?_⟩
    · have := parted q mem
      have := inside.2
      have := hit.1
      omega
    · refine (word_putWord (Nat.mod_lt _ (by decide))).trans (Nat.mod_eq_of_lt ?_)
      omega
    · simp only
      rw [kept]
      refine right.congr fun q mem x inside => frame x fun hit => ?_
      have := apart q mem
      have := inside.1
      have := hit.2
      omega
    · have := hit.1
      exact ⟨by omega, hit.2⟩
  cases after with
  | nil =>
      have nothing : p = 0 := right
      have grown := grows rfl
      rw [if_neg fun h => h.1 nothing]
      exact ⟨_, rfl, grown.1, rfl, grown.2⟩
  | cons q after =>
      obtain ⟨start, qnull, qsize, rest⟩ := right
      have within := fits.within q List.mem_cons_self
      have first := later q List.mem_cons_self
      have bound := reg.max_lt
      simp only [stop] at within
      by_cases melts : node + n = q.start
      · have sized : s.size p = q.size := start ▸ qsize
        have total : (r.size + (n + s.size p)) % 2 ^ 32 = r.size + n + q.size := by
          rw [sized, Nat.mod_eq_of_lt (by omega)]
          omega
        have next : (s.setSize r.start (r.size + n + q.size)).next p = word s.mem q.start := by
          rw [start]
          exact word_putWord_of_apart (.inl (by omega))
        have written := Seg.write left parted rest
          (fun q' mem => apart q' (List.mem_cons_of_mem q mem)) null (n := r.size + n + q.size)
          (by omega) (word_lt _ _)
        have same : (node + n) % 2 ^ 32 = p := by omega
        rw [if_pos ⟨start ▸ qnull, same.ge⟩, total, next, check_of same]
        refine ⟨_, rfl, ?_, rfl, written.2⟩
        rw [joinRight, if_pos (by omega)]
        exact written.1
      · have joined : joinRight ⟨r.start, r.size + n⟩ (q :: after) =
            ⟨r.start, r.size + n⟩ :: q :: after := by
          rw [joinRight, if_neg (by omega)]
        have grown := grows joined
        rw [if_neg fun h => by rw [wrap] at h; omega]
        exact ⟨_, rfl, grown.1, rfl, grown.2⟩

/-- The block between its neighbours. -/
theorem coalesce_spec (h : Laid s.mem s.reg (before ++ after)) (eight : 8 ≤ n)
    (aligned : node % 8 = 0 ∧ n % 8 = 0) (null : node ≠ 0)
    (earlier : ∀ q ∈ before, q.stop ≤ node) (later : ∀ q ∈ after, node + n ≤ q.start)
    (low : s.reg.min ≤ node) (high : node + n ≤ s.reg.max) :
    ∃ s', coalesce s node n (lastNode before) (headNode after) = .ok s' ∧
      Laid s'.mem s'.reg (join before ⟨node, n⟩ after) ∧ Alike s.reg s'.reg ∧
      s'.reg.free = s.reg.free ∧
      ∀ x, x ∉ cover (before ++ after) ∪ Set.Ico node (node + n) → s'.mem x = s.mem x := by
  have bound := s.reg.max_lt
  have fits := h.toFits.join (by omega) aligned earlier later low high
  obtain ⟨p, left, right⟩ := seg_append.mp h.chain
  have head : headNode after = p := Seg.headNode right
  have wrap : (node + n) % 2 ^ 32 = node + n := Nat.mod_eq_of_lt (by omega)
  have fits_right : Fits s.reg after :=
    ⟨(spaced_append.mp h.spaced).2.1, fun r mem => h.aligned r (List.mem_append_right before mem),
      fun r mem => h.within r (List.mem_append_right before mem)⟩
  have front : ∀ r ∈ before, r.start + 8 ≤ node := by
    intro r mem
    have := h.eight_le (List.mem_append_left after mem)
    have := earlier r mem
    simp only [stop] at this
    omega
  have own : ∀ x, x ∉ cover (before ++ after) ∪ Set.Ico node (node + n) →
      x ∉ Set.Ico node (node + 8) := by
    intro x out inside
    have := inside.2
    exact out (.inr ⟨inside.1, by omega⟩)
  have outside : ∀ x, x ∉ cover (before ++ after) ∪ Set.Ico node (node + n) → ∀ r ∈ before,
      x ∉ Set.Ico r.start (r.start + 8) := fun x out r mem inside =>
    out (.inl (h.node_mem_cover (List.mem_append_left after mem) inside))
  rw [head]
  -- When the block does not touch the one before it, its node is put between the two.
  have between : (∀ q ∈ before, q.stop < node) →
      join before ⟨node, n⟩ after = before ++ joinRight ⟨node, n⟩ after →
      ∃ s', coalesce s node n (lastNode before) p = .ok s' ∧
        Laid s'.mem s'.reg (join before ⟨node, n⟩ after) ∧ Alike s.reg s'.reg ∧
        s'.reg.free = s.reg.free ∧
        ∀ x, x ∉ cover (before ++ after) ∪ Set.Ico node (node + n) → s'.mem x = s.mem x := by
    intro gap joined
    have linked : (if lastNode before ≠ 0 then s.setNext (lastNode before) node
        else s.setNodes node) = s.assign (placeAfter before) node ∧
        ¬(lastNode before ≠ 0 ∧ (lastNode before + s.size (lastNode before)) % 2 ^ 32 ≥ node) := by
      induction before using List.reverseRecOn with
      | nil => exact ⟨rfl, fun h => h.1 rfl⟩
      | append_singleton before b _ =>
          have last : lastNode (before ++ [b]) = b.start := by simp [lastNode]
          obtain ⟨t, -, single⟩ := seg_append.mp left
          obtain ⟨-, bnull, size, -⟩ := seg_singleton.mp single
          have sized : s.size b.start = b.size := size
          have := gap b (by simp)
          have := (h.within b (by simp)).2
          simp only [stop] at *
          rw [last, placeAfter_concat, if_pos bnull, sized, Nat.mod_eq_of_lt (by omega)]
          exact ⟨rfl, by omega⟩
    have parted := h.toFits.append_left.parted
    have placed := left.assign parted (q := node) (by omega)
    have rest : Seg (s.assign (placeAfter before) node).mem p after 0 := by
      refine right.congr fun r mem x inside => assign_mem fun r' mem' hit => ?_
      have := front r' mem'
      have := later r mem
      have := inside.1
      have := hit.2
      omega
    obtain ⟨s', outcome, chain, reg, frame⟩ := coalesce_right placed front rest fits_right later null
      eight (by omega)
    have alike : Alike s.reg s'.reg := reg ▸ alike_assign s _ _
    have fits := fits.of_alike alike
    refine ⟨s', ?_, ⟨fits, joined ▸ chain⟩, alike, ?_, ?_⟩
    · rw [coalesce, if_neg linked.2]
      simp only [linked.1]
      rw [← outcome]
      split <;> rfl
    · rw [reg]
      cases placeAfter before <;> rfl
    · intro x out
      exact (frame x (own x out)).trans (assign_mem (outside x out))
  induction before using List.reverseRecOn with
  | nil => exact between (by simp) (by simp [join])
  | append_singleton before b _ =>
      by_cases touch : b.stop = node
      · obtain ⟨t, front_b, single⟩ := seg_append.mp left
        obtain ⟨start_b, null_b, size_b, next_b⟩ := seg_singleton.mp single
        obtain ⟨left_b, -, gap_b⟩ := spaced_append.mp (spaced_append.mp h.spaced).1
        have sized : s.size b.start = b.size := size_b
        have eight_b := h.eight_le (r := b) (by simp)
        have within_b := h.within b (by simp)
        have last : lastNode (before ++ [b]) = b.start := by simp [lastNode]
        have ends : (b.start + b.size) % 2 ^ 32 = node := by
          simp only [stop] at touch
          rw [touch, Nat.mod_eq_of_lt (by omega)]
        have parted_b : ∀ r ∈ before, r.start + 8 ≤ b.start := fun r mem =>
          (List.pairwise_append.mp h.toFits.append_left.parted).2.2 r mem b (by simp)
        have joined : join (before ++ [b]) ⟨node, n⟩ after =
            before ++ joinRight ⟨b.start, b.size + n⟩ after := by
          simp [join, touch]
        have own_b : ∀ x, x ∉ cover (before ++ [b] ++ after) ∪ Set.Ico node (node + n) →
            x ∉ Set.Ico b.start (b.start + 8) := fun x out => outside x out b (by simp)
        simp only [stop] at touch within_b
        rw [joined] at fits ⊢
        rw [coalesce, last, sized, if_pos ⟨null_b, ends.ge⟩, check_of ends]
        obtain ⟨s', outcome, chain, reg, frame⟩ := coalesce_left (start_b ▸ front_b) parted_b
          next_b null_b eight_b touch right fits_right later (by omega)
        have alike : Alike s.reg s'.reg := reg ▸ Alike.refl s.reg
        exact ⟨s', outcome, ⟨fits.of_alike alike, chain⟩, alike, by rw [reg],
          fun x out => frame x (own_b x out)⟩
      · refine between (fun q mem => ?_) ?_
        · rcases List.mem_append.mp mem with mem | mem
          · have := (spaced_append.mp (spaced_append.mp h.spaced).1).2.2 q mem b (by simp)
            have := h.eight_le (r := b) (by simp)
            have := earlier b (by simp)
            simp only [stop] at *
            omega
          · rw [List.mem_singleton.mp mem]
            have := earlier b (by simp)
            omega
        · simp [join, touch]

/-! ### The region of a block -/

theorem apart_of_notMem {l : List Range} (out : ∀ x ∈ block ⟨node, n⟩, x ∉ cover l) (pos : 0 < n)
    (posr : 0 < r.size) (mem : r ∈ l) : r.stop ≤ node ∨ node + n ≤ r.start := by
  by_contra touch
  simp only [not_or, not_le] at touch
  obtain ⟨below, above⟩ := touch
  rcases Nat.lt_or_ge node r.start with lt | le
  · exact out r.start ⟨lt.le, above⟩ ⟨r, mem, le_refl _, Nat.lt_add_of_pos_right posr⟩
  · exact out node ⟨le_refl _, Nat.lt_add_of_pos_right pos⟩ ⟨r, mem, le, below⟩

/-- The free list splits at an address outside it. -/
theorem Spaced.split {l : List Range} (h : Spaced l) (out : ∀ x ∈ block ⟨node, n⟩, x ∉ cover l)
    (pos : 0 < n) : ∃ before after, l = before ++ after ∧ (∀ q ∈ before, q.stop ≤ node) ∧
      ∀ q ∈ after, node + n ≤ q.start := by
  induction l with
  | nil => exact ⟨[], [], rfl, by simp, by simp⟩
  | cons r l ih =>
      obtain ⟨posr, later, rest⟩ := spaced_cons.mp h
      rcases apart_of_notMem out pos posr List.mem_cons_self with below | above
      · obtain ⟨before, after, rfl, left, right⟩ := ih rest fun x inside hit =>
          out x inside (by rw [cover_cons]; exact .inr hit)
        refine ⟨r :: before, after, rfl, fun q mem => ?_, right⟩
        rcases List.mem_cons.mp mem with rfl | mem
        · exact below
        · exact left q mem
      · refine ⟨[], r :: l, rfl, by simp, fun q mem => ?_⟩
        rcases List.mem_cons.mp mem with rfl | mem
        · exact above
        · have := later q mem
          simp only [stop] at this
          omega

/-- The block goes into the free list of its region. -/
theorem freeIn_spec (node n : Nat) (h : Holds s.mem s.reg S) (out : ∀ x ∈ block ⟨node, n⟩, x ∉ S) (pos : 0 < n)
    (aligned : node % 8 = 0 ∧ n % 8 = 0) (null : node ≠ 0) (low : s.reg.min ≤ node)
    (high : node + n ≤ s.reg.max) :
    ∃ s', freeIn s node n = .ok s' ∧ Holds s'.mem s'.reg (S ∪ block ⟨node, n⟩) ∧
      Alike s.reg s'.reg ∧ ∀ x, x ∉ S ∪ block ⟨node, n⟩ → s'.mem x = s.mem x := by
  obtain ⟨l, laid, free, rfl⟩ := h
  obtain ⟨before, after, rfl, earlier, later⟩ := Spaced.split laid.spaced out pos
  have bound := s.reg.max_lt
  have joined := join_spec (r := ⟨node, n⟩) laid.spaced pos earlier later
  have room := (laid.toFits.join pos aligned earlier later low high).total_le
  rw [joined.2.2] at room
  simp only at room
  have counted : (s.reg.free + n) % 2 ^ 32 = s.reg.free + n := Nat.mod_eq_of_lt (by omega)
  let u := s.setFree (s.reg.free + n)
  have ulaid : Laid u.mem u.reg (before ++ after) :=
    ⟨⟨laid.spaced, laid.aligned, laid.within⟩, laid.chain⟩
  have place := findPlace_spec (s := u) node rounds ulaid.chain
    (fun r mem => by
      have := earlier r mem
      have := laid.spaced.nonempty r (List.mem_append_left after mem)
      simp only [stop] at *
      omega)
    (fun r mem => by have := later r mem; omega)
    (by
      have := laid.length_lt
      rw [List.length_append] at this
      omega) 0
  have first : (if before = [] then 0 else lastNode before) = lastNode before := by
    cases before <;> rfl
  obtain ⟨s', outcome, laid', alike, same, frame⟩ := coalesce_spec ulaid (by omega) aligned null
    earlier later low high
  refine ⟨s', ?_, ⟨_, laid', ?_, joined.2.1⟩,
    ⟨alike.min, alike.max, alike.flags, alike.pri⟩, frame⟩
  · rw [freeIn, counted]
    change (check (s.reg.free + n ≤ s.reg.max - s.reg.min) >>= fun _ => _) = _
    rw [check_of (by omega)]
    change (findPlace node rounds u 0 u.reg.nodes >>= fun place => _) = _
    rw [place, first]
    exact outcome
  · rw [same, joined.2.2, ← free]
    rfl

/-- The search passes over the regions that do not hold the node. -/
theorem freeRegions_skip {left right : List Region} {s' : At}
    (sane : ∀ r ∈ left ++ reg :: right, r.sane)
    (skip : ∀ r ∈ left, ¬(r.min ≤ node ∧ node < r.max)) (inside : reg.min ≤ node ∧ node < reg.max)
    (done : freeIn ⟨m, reg⟩ node n = .ok s') :
    freeRegions node n m (left ++ reg :: right) = .ok (s'.mem, left ++ s'.reg :: right) := by
  induction left with
  | nil =>
      rw [List.nil_append, freeRegions, check_of (sane reg (by simp)).1]
      simp only [if_pos inside, done, bind, Except.bind]
      rfl
  | cons r left ih =>
      have rest := ih (fun r' mem => sane r' (List.mem_cons_of_mem r mem))
        fun r' mem => skip r' (List.mem_cons_of_mem r mem)
      rw [List.cons_append, freeRegions, check_of (sane r (by simp)).1]
      simp only [if_neg (skip r List.mem_cons_self), rest, bind, Except.bind]
      rfl

/-- Some cells of one region that are not free. -/
structure Out (regions : List Region) (S : Set Nat) (r : Range) : Prop where
  pos : 0 < r.size
  aligned : r.start % 8 = 0 ∧ r.size % 8 = 0
  null : r.start ≠ 0
  region : ∃ reg ∈ regions, block r ⊆ reg.bytes
  out : ∀ x ∈ block r, x ∉ S

/-- `lmm_free` adds the cells of a block to the free ones. -/
theorem free_spec {l : Manager} {addr size : Nat} (h : Stocked l.mem l.regions S)
    (pos : 0 < size) (out : Out l.regions S (cellsOf addr size)) :
    ∃ l', free l addr size = .ok l' ∧ Stocked l'.mem l'.regions (S ∪ block (cellsOf addr size)) ∧
      List.Forall₂ Alike l.regions l'.regions ∧
      ∀ x, x ∉ S ∪ block (cellsOf addr size) → l'.mem x = l.mem x := by
  obtain ⟨reg, mem, within⟩ := out.region
  obtain ⟨left, right, split⟩ := List.append_of_mem mem
  obtain ⟨node, hnode⟩ : ∃ node, node = alignDown addr := ⟨_, rfl⟩
  obtain ⟨n, hn⟩ : ∃ n, n = alignUp (addr % 8 + size) := ⟨_, rfl⟩
  have cells : cellsOf addr size = ⟨node, n⟩ := by rw [cellsOf, hnode, hn]
  rw [cells] at out within ⊢
  have npos : 0 < n := out.pos
  have first := within ⟨le_refl node, Nat.lt_add_of_pos_right npos⟩
  have last : node + n ≤ reg.max := by
    have final : node + n - 1 ∈ block ⟨node, n⟩ := by
      constructor
      · simp only
        omega
      · simp only [stop]
        omega
    have := (within final).2
    omega
  rw [split] at h
  obtain ⟨s', done, holds, alike, frame⟩ := freeIn_spec (s := ⟨l.mem, reg⟩) node n
    (h.holds reg (by simp)) (fun x inside hit => out.out x inside hit.1) npos out.aligned out.null
    first.1 last
  have skip : ∀ r ∈ left, ¬(r.min ≤ node ∧ node < r.max) := fun r memr inside =>
    Stocked.apart_of_ne h.apart (.inl memr) (x := node) inside first
  have searched := freeRegions_skip (fun r memr => (h.holds r memr).sane) skip first done
  refine ⟨⟨s'.mem, left ++ s'.reg :: right⟩, ?_, h.replace alike ?_ ?_ ?_, ?_, ?_⟩
  · have null : addr ≠ 0 := by
      rintro rfl
      exact out.null hnode
    rw [free, check_of null, check_of pos, ← hnode, ← hn, split]
    change (freeRegions node n l.mem (left ++ reg :: right) >>= fun done => _) = _
    rw [searched]
    rfl
  · have part : (S ∪ block ⟨node, n⟩) ∩ reg.bytes = S ∩ reg.bytes ∪ block ⟨node, n⟩ := by
      ext x
      constructor
      · rintro ⟨free | hit, inside⟩
        · exact .inl ⟨free, inside⟩
        · exact .inr hit
      · rintro (free | hit)
        · exact ⟨.inl free.1, free.2⟩
        · exact ⟨.inr hit, within hit⟩
    exact part ▸ holds
  · intro x outside
    constructor
    · rintro (free | hit)
      · exact free
      · exact absurd (within hit) outside
    · exact .inl
  · intro x outside
    refine frame x fun hit => outside ?_
    rcases hit with free | hit
    · exact free.2
    · exact within hit
  · rw [split]
    exact forall₂_alike_middle left right alike
  · intro x notin
    exact frame x fun hit => notin (hit.imp_left And.left)

end OsKernel.Lmm
