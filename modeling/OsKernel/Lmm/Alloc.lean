/-
`lmm_alloc` and `lmm_alloc_gen`.
-/

import OsKernel.Lmm.Lists

namespace OsKernel.Lmm

open OsKernel.Words OsKernel.Range

variable {s : At} {before after : List Range} {r : Range} {c k n p : Nat}

/-- `takeHead` takes the first `k` of the `n` bytes at `c` out of the list, when the nodes before
it are found from the head, and those behind it from its own `next`. -/
theorem takeHead_spec (left : Seg s.mem s.reg.nodes before p) (parted : Parted before)
    (front : ∀ r ∈ before, r.start + 8 ≤ c) (right : Seg s.mem (s.next c) after 0)
    (later : ∀ r ∈ after, c + n ≤ r.start) (size : s.size c = n) (small : k ≤ n) (eight : 8 ≤ k)
    (rest : k < n → k + 8 ≤ n) (lt : c + n < 2 ^ 32) :
    Seg (takeHead s (placeAfter before) c k).mem (takeHead s (placeAfter before) c k).reg.nodes
        (before ++ ((if c + k < c + n then [⟨c + k, c + n - (c + k)⟩] else []) ++ after)) 0 ∧
      (∀ x, (∀ r ∈ before, x ∉ Set.Ico r.start (r.start + 8)) → x ∉ Set.Ico c (c + n) →
        (takeHead s (placeAfter before) c k).mem x = s.mem x) ∧
      Alike s.reg (takeHead s (placeAfter before) c k).reg ∧
      (takeHead s (placeAfter before) c k).reg.free = s.reg.free := by
  have nextlt : s.next c < 2 ^ 32 := word_lt _ _
  by_cases split : k < n
  · have wraps : (c + k) % 2 ^ 32 = c + k := Nat.mod_eq_of_lt (by omega)
    have room := rest split
    let u := (s.setNext (c + k) (s.next c)).setSize (c + k) (n - k)
    have taken : takeHead s (placeAfter before) c k = u.assign (placeAfter before) (c + k) := by
      have kept : (s.setNext (c + k) (s.next c)).size c = n :=
        (word_putWord_of_apart (.inr (by omega))).trans size
      simp only [takeHead, size, split, if_true, wraps, kept]
      rfl
    have umem : ∀ x, x ∉ Set.Ico (c + k) (c + k + 8) → u.mem x = s.mem x := by
      intro x out
      simp only [Set.mem_Ico] at out
      refine (putWord_of_notMem ?_).trans (putWord_of_notMem ?_)
      all_goals
        simp only [Set.mem_Ico]
        omega
    have unext : u.next (c + k) = s.next c :=
      (word_putWord_of_apart (.inr (by omega))).trans (word_putWord nextlt)
    have usize : u.size (c + k) = n - k := word_putWord (by omega)
    have uleft : Seg u.mem u.reg.nodes before p := by
      refine left.congr fun r mem x inside => umem x fun hit => ?_
      have := front r mem
      have := inside.2
      have := hit.1
      omega
    -- Only a node before the place is written to.
    have stays : ∀ x, c ≤ x → (u.assign (placeAfter before) (c + k)).mem x = u.mem x := by
      intro x above
      refine assign_mem fun r mem hit => ?_
      have := front r mem
      have := hit.2
      omega
    have newnode : Seg (u.assign (placeAfter before) (c + k)).mem (c + k)
        [⟨c + k, c + n - (c + k)⟩] (s.next c) := by
      refine seg_singleton.mpr ⟨rfl, by simp only; omega, ?_, ?_⟩
      · refine (word_congr fun x inside => stays x ?_).trans (usize.trans (by simp only; omega))
        have := inside.1
        simp only at this
        omega
      · refine (word_congr fun x inside => stays x ?_).trans unext
        have := inside.1
        simp only at this
        omega
    have uright : Seg (u.assign (placeAfter before) (c + k)).mem (s.next c) after 0 := by
      refine right.congr fun r mem x inside => ?_
      have := later r mem
      have := inside.1
      refine (stays x (by omega)).trans (umem x fun hit => ?_)
      have := hit.2
      omega
    rw [taken, if_pos (by omega)]
    refine ⟨seg_append.mpr ⟨c + k, uleft.assign parted (by omega),
      seg_append.mpr ⟨_, newnode, uright⟩⟩, ?_, ?_, ?_⟩
    · intro x out outside
      refine (assign_mem out).trans (umem x fun hit => outside ⟨?_, ?_⟩)
      · have := hit.1
        omega
      · have := hit.2
        omega
    · exact alike_assign u _ _
    · cases placeAfter before <;> rfl
  · have whole : takeHead s (placeAfter before) c k = s.assign (placeAfter before) (s.next c) := by
      simp only [takeHead, size, split, if_false]
    have uright : Seg (s.assign (placeAfter before) (s.next c)).mem (s.next c) after 0 := by
      refine right.congr fun r mem x inside => assign_mem fun r' mem' hit => ?_
      have := later r mem
      have := front r' mem'
      have := inside.1
      have := hit.2
      omega
    rw [whole, if_neg (by omega)]
    refine ⟨seg_append.mpr ⟨_, left.assign parted nextlt, uright⟩, ?_, alike_assign s _ _, ?_⟩
    · intro x out _
      exact assign_mem out
    · cases placeAfter before <;> rfl

theorem Fits.carve {reg : Region} (h : Fits reg (before ++ r :: after)) (low : r.start ≤ c)
    (high : c + k ≤ r.stop) (pos : 0 < k) (aligned : c % 8 = 0 ∧ k % 8 = 0) :
    Fits reg (before ++ (carve r c k ++ after)) := by
  have mem : r ∈ before ++ r :: after := by simp
  have old : ∀ q ∈ before ++ after, q ∈ before ++ r :: after := by
    intro q memq
    rcases List.mem_append.mp memq with memq | memq
    · exact List.mem_append_left _ memq
    · exact List.mem_append_right _ (List.mem_cons_of_mem r memq)
  have split : ∀ q ∈ before ++ (Range.carve r c k ++ after),
      q ∈ before ++ after ∨ q ∈ Range.carve r c k := by
    intro q memq
    simp only [List.mem_append] at memq ⊢
    tauto
  refine ⟨h.spaced.carve low high pos, ?_, ?_⟩
  · intro q memq
    rcases split q memq with memq | memq
    · exact h.aligned q (old q memq)
    · have whole := h.aligned r mem
      simp only [Range.carve, List.mem_append] at memq
      rcases memq with memq | memq
      all_goals
        split at memq
        · obtain rfl := List.mem_singleton.mp memq
          simp only [stop] at *
          omega
        · cases memq
  · intro q memq
    rcases split q memq with memq | memq
    · exact h.within q (old q memq)
    · have whole := h.within r mem
      have piece := of_mem_carve low high memq
      exact ⟨whole.1.trans piece.1, piece.2.1.trans whole.2⟩

/-- From the free list with the range `r` the `k` bytes at `c` were taken. -/
structure Taken (s s' : At) (before : List Range) (r : Range) (after : List Range) (c k : Nat) :
    Prop where
  laid : Laid s'.mem s'.reg (before ++ (carve r c k ++ after))
  free : s'.reg.free + k = s.reg.free
  alike : Alike s.reg s'.reg
  frame : ∀ x, x ∉ cover (before ++ r :: after) → s'.mem x = s.mem x

theorem total_middle : total (before ++ r :: after) = total before + r.size + total after := by
  simp only [total_append, total_cons]
  omega

/-- Two parts of one free list. -/
theorem Laid.parts {reg : Region} {m : Mem} (h : Laid m reg (before ++ r :: after)) :
    Seg m reg.nodes before r.start ∧ r.start ≠ 0 ∧ word m (r.start + 4) = r.size ∧
      Seg m (word m r.start) after 0 ∧ Parted before ∧ (∀ q ∈ before, q.start + 8 ≤ r.start) ∧
      (∀ q ∈ after, r.stop < q.start) ∧ 8 ≤ r.size ∧ r.start % 8 = 0 ∧ r.size % 8 = 0 ∧
      r.stop ≤ reg.max := by
  have mem : r ∈ before ++ r :: after := by simp
  obtain ⟨t, left, start, null, size, rest⟩ := seg_append.mp h.chain
  have parted := List.pairwise_append.mp h.parted
  have aligned := h.aligned r mem
  exact ⟨start ▸ left, null, size, rest, parted.1, fun q memq => parted.2.2 q memq r (by simp),
    (spaced_cons.mp (spaced_append.mp h.spaced).2.1).2.1, h.eight_le mem, aligned.1, aligned.2,
    (h.within r mem).2⟩

/-- The head of a node is taken. -/
theorem Laid.takeHead (h : Laid s.mem s.reg (before ++ r :: after))
    (free : s.reg.free = total (before ++ r :: after)) (pos : 0 < k) (small : k ≤ r.size)
    (aligned : k % 8 = 0) :
    k ≤ (takeHead s (placeAfter before) r.start k).reg.free ∧
    Taken s ((Lmm.takeHead s (placeAfter before) r.start k).setFree
      ((Lmm.takeHead s (placeAfter before) r.start k).reg.free - k)) before r after r.start k := by
  obtain ⟨left, -, size, rest, parted, front, later, -, start8, size8, within⟩ := h.parts
  have bound := s.reg.max_lt
  simp only [stop] at later within
  obtain ⟨chain, frame, alike, same⟩ := takeHead_spec (k := k) left parted front rest
    (fun q mem => (later q mem).le) size small (by omega) (by omega) (by omega)
  have high : r.start + k ≤ r.stop := by
    simp only [stop]
    omega
  have fits := (h.toFits.carve (le_refl _) high pos ⟨start8, aligned⟩).of_alike alike
  have enough : k ≤ (Lmm.takeHead s (placeAfter before) r.start k).reg.free := by
    rw [same, free, total_middle]
    omega
  have pieces : carve r r.start k =
      if r.start + k < r.start + r.size then [⟨r.start + k, r.start + r.size - (r.start + k)⟩]
      else [] := by
    rw [carve, if_neg (lt_irrefl _)]
    rfl
  refine ⟨enough, ⟨⟨fits.spaced, fits.aligned, fits.within⟩, pieces ▸ chain⟩, ?_,
    ⟨alike.min, alike.max, alike.flags, alike.pri⟩, ?_⟩
  · simp only [At.setFree]
    omega
  · intro x out
    refine frame x (fun q mem inside => out ?_) fun inside => out ?_
    · exact h.node_mem_cover (by simp [mem]) inside
    · exact ⟨r, by simp, inside⟩

/-! ### `lmm_alloc` in one region -/

/-- The loop takes the head of the first node that is large enough, or finds none. -/
theorem allocNodes_spec (h : Laid s.mem s.reg (before ++ after))
    (free : s.reg.free = total (before ++ after)) (pos : 0 < k) (aligned : k % 8 = 0) (fuel : Nat)
    (enough : after.length < fuel) :
    (allocNodes k fuel s (placeAfter before) = .ok none ∧ ∀ r ∈ after, r.size < k) ∨
    ∃ mid r rest s', after = mid ++ r :: rest ∧ (∀ q ∈ mid, q.size < k) ∧ k ≤ r.size ∧
      allocNodes k fuel s (placeAfter before) = .ok (some (s', r.start)) ∧
      Taken s s' (before ++ mid) r rest r.start k := by
  induction after generalizing before fuel with
  | nil =>
      obtain ⟨fuel, rfl⟩ := Nat.exists_eq_add_of_lt enough
      refine .inl ⟨?_, by simp⟩
      have chain := h.chain
      rw [List.append_nil] at chain
      simp [allocNodes, chain.deref]
      rfl
  | cons r after ih =>
      obtain ⟨fuel, rfl⟩ : ∃ f, fuel = f + 1 := ⟨fuel - 1, by omega⟩
      obtain ⟨left, null, size, -⟩ := h.parts
      have node : s.deref (placeAfter before) = r.start := left.deref
      have sized : s.size r.start = r.size := size
      rw [allocNodes]
      simp only [node, if_neg null, check_of h.sane_node, sized]
      by_cases fits : k ≤ r.size
      · obtain ⟨covered, taken⟩ := h.takeHead free pos fits aligned
        refine .inr ⟨[], r, after, _, rfl, by simp, fits, ?_, by simpa using taken⟩
        simp only [if_pos fits, check_of covered]
        rfl
      · have step : before ++ r :: after = before ++ [r] ++ after := by simp
        have found := ih (step ▸ h) (step ▸ free) fuel (by simpa using enough)
        rw [placeAfter_concat] at found
        have small : r.size < k := by omega
        rcases found with ⟨none, all⟩ | ⟨mid, r', rest, s', rfl, all, large, some, taken⟩
        · refine .inl ⟨?_, ?_⟩
          · simp only [if_neg fits]
            exact none
          · intro q mem
            rcases List.mem_cons.mp mem with rfl | mem
            · exact small
            · exact all q mem
        · refine .inr ⟨r :: mid, r', rest, s', rfl, ?_, large, ?_, by simpa using taken⟩
          · intro q mem
            rcases List.mem_cons.mp mem with rfl | mem
            · exact small
            · exact all q mem
          · simp only [if_neg fits]
            exact some

end OsKernel.Lmm
