/-
`lmm_alloc_gen` in one region: the address that it adjusts, and the node that it takes.
-/

import OsKernel.Lmm.Alloc
import Mathlib.Data.Nat.Bitwise
import Mathlib.Data.Nat.ModEq

namespace OsKernel.Lmm

open OsKernel.Words OsKernel.Range

/-! ### The alignment -/

variable {bits ofs addr : Nat}

theorem adjust_succ (bits ofs addr : Nat) : adjust (bits + 1) ofs addr =
    if (adjust bits ofs addr ^^^ ofs) &&& 2 ^ bits ≠ 0 then
      (adjust bits ofs addr + 2 ^ bits) % 2 ^ 32
    else adjust bits ofs addr := by
  rw [adjust, List.range_succ, List.foldl_append]
  rfl

/-- The bit that the loop looks at. -/
theorem xor_and_two_pow (x y i : Nat) :
    (x ^^^ y) &&& 2 ^ i ≠ 0 ↔ x / 2 ^ i % 2 ≠ y / 2 ^ i % 2 := by
  have bit : (x ^^^ y).testBit i = (x.testBit i ^^ y.testBit i) := Nat.testBit_xor x y i
  rw [Nat.and_two_pow, bit, Nat.testBit_eq_decide_div_mod_eq, Nat.testBit_eq_decide_div_mod_eq]
  have hx := Nat.mod_two_eq_zero_or_one (x / 2 ^ i)
  have hy := Nat.mod_two_eq_zero_or_one (y / 2 ^ i)
  rcases hx with hx | hx <;> rcases hy with hy | hy <;> simp [hx, hy]

/-- The loop goes to the next address with the residue. -/
theorem adjust_spec (ofs : Nat) (fits : addr + 2 ^ bits ≤ 2 ^ 32) :
    addr ≤ adjust bits ofs addr ∧ adjust bits ofs addr < addr + 2 ^ bits ∧
      adjust bits ofs addr ≡ ofs [MOD 2 ^ bits] := by
  induction bits with
  | zero => exact ⟨le_refl _, Nat.lt_succ_self _, Nat.modEq_one⟩
  | succ bits ih =>
      have double : 2 ^ (bits + 1) = 2 ^ bits + 2 ^ bits := by rw [pow_succ]; omega
      have pos := Nat.two_pow_pos bits
      obtain ⟨low, high, same⟩ := ih (by omega)
      rw [adjust_succ]
      have digits := xor_and_two_pow (adjust bits ofs addr) ofs bits
      have parts : ∀ x, x % 2 ^ (bits + 1) = x % 2 ^ bits + 2 ^ bits * (x / 2 ^ bits % 2) :=
        fun x => Nat.mod_pow_succ
      simp only [Nat.ModEq, parts] at same ⊢
      split
      · rename_i differ
        have differ := digits.mp differ
        rw [Nat.mod_eq_of_lt (by omega)]
        refine ⟨by omega, by omega, ?_⟩
        rw [Nat.add_mod_right, Nat.add_div_right _ (Nat.two_pow_pos bits), same]
        have hx := Nat.mod_two_eq_zero_or_one (adjust bits ofs addr / 2 ^ bits)
        have hy := Nat.mod_two_eq_zero_or_one (ofs / 2 ^ bits)
        have flips : (adjust bits ofs addr / 2 ^ bits + 1) % 2 = ofs / 2 ^ bits % 2 := by omega
        rw [flips]
      · rename_i agree
        have agree := not_not.mp (mt digits.mpr agree)
        exact ⟨low, by omega, by rw [same, agree]⟩

/-- No address with the residue comes before. -/
theorem adjust_least (fits : addr + 2 ^ bits ≤ 2 ^ 32) {a : Nat} (le : addr ≤ a)
    (same : a ≡ ofs [MOD 2 ^ bits]) : adjust bits ofs addr ≤ a := by
  obtain ⟨low, high, residue⟩ := adjust_spec ofs fits
  by_contra before
  have dvd := (Nat.modEq_iff_dvd' (by omega)).mp (same.trans residue.symm)
  have := Nat.le_of_dvd (by omega) dvd
  omega

/-! ### A block within a node -/

variable {s : At} {before after : List Range} {r : Range} {p : Nat}

/-- The node of `n` bytes is split at `c`. -/
def splitAt (s : At) (node c n : Nat) : At :=
  ((s.setNext c (s.next node)).setSize c (n - (c - node))).setSize node (c - node)

/-- A node that is split: its front is a node of its own, and nothing but the two nodes is written
to. -/
theorem splitAt_spec {c : Nat} (left : Seg s.mem s.reg.nodes before r.start) (null : r.start ≠ 0)
    (rest : Seg s.mem (s.next r.start) after 0) (front : ∀ q ∈ before, q.start + 8 ≤ r.start)
    (later : ∀ q ∈ after, r.start + r.size < q.start) (low : r.start + 8 ≤ c)
    (high : c + 8 ≤ r.start + r.size) (bound : r.start + r.size < 2 ^ 32) :
    Seg (splitAt s r.start c r.size).mem s.reg.nodes (before ++ [⟨r.start, c - r.start⟩])
        (s.next r.start) ∧
      Seg (splitAt s r.start c r.size).mem ((splitAt s r.start c r.size).next c) after 0 ∧
      (splitAt s r.start c r.size).size c = r.size - (c - r.start) ∧
      ∀ x, x ∉ Set.Ico (r.start + 4) (r.start + 8) → x ∉ Set.Ico c (c + 8) →
        (splitAt s r.start c r.size).mem x = s.mem x := by
  have nextlt : s.next r.start < 2 ^ 32 := word_lt _ _
  have frame : ∀ x, x ∉ Set.Ico (r.start + 4) (r.start + 8) → x ∉ Set.Ico c (c + 8) →
      (splitAt s r.start c r.size).mem x = s.mem x := by
    intro x out out'
    simp only [Set.mem_Ico] at out out'
    refine (putWord_of_notMem ?_).trans ((putWord_of_notMem ?_).trans (putWord_of_notMem ?_))
    all_goals
      simp only [Set.mem_Ico]
      omega
  have next : (splitAt s r.start c r.size).next r.start = s.next r.start := by
    apply word_congr
    intro x inside
    have := inside.2
    apply frame
    all_goals
      simp only [Set.mem_Ico]
      omega
  have size : (splitAt s r.start c r.size).size r.start = c - r.start := word_putWord (by omega)
  have cnext : (splitAt s r.start c r.size).next c = s.next r.start :=
    (word_putWord_of_apart (.inl (by omega))).trans
      ((word_putWord_of_apart (.inr (by omega))).trans (word_putWord nextlt))
  have csize : (splitAt s r.start c r.size).size c = r.size - (c - r.start) :=
    (word_putWord_of_apart (.inl (by omega))).trans (word_putWord (by omega))
  refine ⟨?_, ?_, csize, frame⟩
  · refine seg_append.mpr ⟨r.start, left.congr fun q mem x inside => frame x ?_ ?_,
      seg_singleton.mpr ⟨rfl, null, size, next⟩⟩
    all_goals
      have := front q mem
      have := inside.2
      simp only [Set.mem_Ico]
      omega
  · rw [cnext]
    refine rest.congr fun q mem x inside => frame x ?_ ?_
    all_goals
      have := later q mem
      have := inside.1
      simp only [Set.mem_Ico]
      omega

theorem takeAt_spec {size : Nat} (h : Laid s.mem s.reg (before ++ r :: after))
    (free : s.reg.free = total (before ++ r :: after)) (low : r.start ≤ addr)
    (high : addr + size ≤ r.stop) (pos : 0 < size) :
    ∃ s', takeAt s (placeAfter before) r.start addr size = .ok (s', addr) ∧
      Taken s s' before r after (alignDown addr) (alignUp (addr % 8 + size)) := by
  obtain ⟨left, null, sized, rest, parted, front, later, eight, start8, size8, within⟩ := h.parts
  have bound := s.reg.max_lt
  have max8 := s.reg.max_aligned
  simp only [stop] at high later within
  have chunk : alignUp (addr % 8 + size) = (addr % 8 + size + 7) / 8 * 8 := by
    rw [alignUp, Nat.mod_eq_of_lt]
    omega
  obtain ⟨c, hc⟩ : ∃ c, c = alignDown addr := ⟨_, rfl⟩
  obtain ⟨k, hk⟩ : ∃ k, k = alignUp (addr % 8 + size) := ⟨_, rfl⟩
  have c8 : c % 8 = 0 := hc ▸ Nat.mul_mod_left _ 8
  have k8 : k % 8 = 0 := hk ▸ Nat.mul_mod_left _ 8
  have cle : c ≤ addr ∧ addr < c + 8 := by
    rw [hc, alignDown]
    omega
  have kle : addr + size ≤ c + k ∧ c + k < addr + size + 8 := by
    rw [hc, alignDown, hk, chunk]
    omega
  have clow : r.start ≤ c := by omega
  have chigh : c + k ≤ r.start + r.size := by omega
  have kpos : 0 < k := by omega
  have fits := h.toFits.carve clow (show c + k ≤ r.stop from chigh) kpos ⟨c8, k8⟩
  rw [← hc, ← hk]
  by_cases split : r.start < c
  · -- The front of the node stays in the list, as a node of its own.
    let u := splitAt s r.start c r.size
    obtain ⟨uleft, uright, csize, umem⟩ :
        Seg u.mem u.reg.nodes (before ++ [⟨r.start, c - r.start⟩]) (s.next r.start) ∧
          Seg u.mem (u.next c) after 0 ∧ u.size c = r.size - (c - r.start) ∧
          ∀ x, x ∉ Set.Ico (r.start + 4) (r.start + 8) → x ∉ Set.Ico c (c + 8) →
            u.mem x = s.mem x :=
      splitAt_spec left null rest front later (by omega) (by omega) (by omega)
    have uparted : Parted (before ++ [⟨r.start, c - r.start⟩]) :=
      List.pairwise_append.mpr ⟨parted, List.pairwise_singleton _ _, fun q mem q' mem' => by
        rw [List.mem_singleton.mp mem']
        exact front q mem⟩
    obtain ⟨chain, frame, alike, same⟩ := takeHead_spec (n := r.size - (c - r.start)) (k := k) uleft
      uparted
      (fun q mem => by
        rcases List.mem_append.mp mem with mem | mem
        · have := front q mem
          omega
        · rw [List.mem_singleton.mp mem]
          simp only
          omega)
      uright (fun q mem => by have := later q mem; omega) csize (by omega) (by omega) (by omega)
      (by omega)
    rw [placeAfter_concat] at chain frame alike same
    have whole : (before ++ [(⟨r.start, c - r.start⟩ : Range)]) ++
        ((if c + k < c + (r.size - (c - r.start)) then
          [⟨c + k, c + (r.size - (c - r.start)) - (c + k)⟩] else []) ++ after) =
        before ++ (Range.carve r c k ++ after) := by
      have ends : c + (r.size - (c - r.start)) = r.stop := by
        simp only [stop]
        omega
      rw [ends, Range.carve, if_pos split]
      simp
    rw [whole] at chain
    obtain ⟨v, hv⟩ : ∃ v, v = takeHead u (some r.start) c k := ⟨_, rfl⟩
    change Seg (takeHead u (some r.start) c k).mem _ _ _ at chain
    change Alike u.reg (takeHead u (some r.start) c k).reg at alike
    change (takeHead u (some r.start) c k).reg.free = _ at same
    change ∀ x, _ → _ → (takeHead u (some r.start) c k).mem x = u.mem x at frame
    rw [← hv] at chain alike same frame
    have fits := fits.of_alike alike
    have enough : k ≤ v.reg.free := by
      have kept : u.reg.free = s.reg.free := rfl
      rw [same, kept, free, total_middle]
      omega
    refine ⟨v.setFree (v.reg.free - k), ?_, ⟨⟨fits.spaced, fits.aligned, fits.within⟩, chain⟩, ?_,
      ⟨alike.min, alike.max, alike.flags, alike.pri⟩, ?_⟩
    · have reads : (s.setNext c (s.next r.start)).size r.start = r.size :=
        (word_putWord_of_apart (.inr (by omega))).trans sized
      simp only [takeAt, ← hc, ← hk, check_of clow, if_pos split, reads]
      change (check (k ≤ (takeHead u (some r.start) c k).reg.free) >>= _) = _
      rw [← hv, check_of enough, hv]
      rfl
    · exact (Nat.sub_add_cancel enough).trans same
    · intro x out
      have outside : x ∉ Set.Ico r.start r.stop := fun inside => out ⟨r, by simp, inside⟩
      simp only [stop, Set.mem_Ico] at outside
      refine (frame x ?_ ?_).trans (umem x ?_ ?_)
      · intro q mem inside
        rcases List.mem_append.mp mem with mem | mem
        · exact out (h.node_mem_cover (by simp [mem]) inside)
        · rw [List.mem_singleton.mp mem] at inside
          simp only [Set.mem_Ico] at inside
          omega
      all_goals
        simp only [Set.mem_Ico]
        omega
  · have start : c = r.start := by omega
    obtain ⟨enough, taken⟩ := h.takeHead free kpos (by omega) k8
    refine ⟨_, ?_, start ▸ taken⟩
    simp only [takeAt, ← hc, ← hk, check_of clow, if_neg split]
    rw [start, check_of enough]
    rfl

/-! ### The nodes of a region -/

namespace Request

/-- The block at `a` meets the request. -/
structure Admits (q : Request) (a : Nat) : Prop where
  low : q.inMin ≤ a
  high : a + q.size ≤ q.inMax
  residue : a ≡ q.alignOfs [MOD 2 ^ q.alignBits]

/-- No address that the request computes for a node below `top` wraps. -/
structure Roomy (q : Request) (top : Nat) : Prop where
  top : top + 2 ^ q.alignBits ≤ 2 ^ 32
  min : q.inMin = 0 ∨ q.inMin + q.size + 2 ^ q.alignBits ≤ 2 ^ 32

variable {q : Request}

theorem addr_spec (room : q.Roomy r.stop) :
    r.start ≤ q.addr r.start ∧ q.inMin ≤ q.addr r.start ∧
      q.addr r.start ≡ q.alignOfs [MOD 2 ^ q.alignBits] ∧
      (∀ a, r.start ≤ a → q.Admits a → q.addr r.start ≤ a) ∧
      (q.size ≤ r.size → (q.addr r.start - r.start) + q.size < 2 ^ 32) ∧
      q.addr r.start < 2 ^ 32 := by
  obtain ⟨top, min⟩ := room
  have pos := Nat.two_pow_pos q.alignBits
  simp only [stop] at top
  rw [addr]
  obtain ⟨first, def_first⟩ : ∃ n, n = if r.start < q.inMin then q.inMin else r.start := ⟨_, rfl⟩
  have bounds : r.start ≤ first ∧ q.inMin ≤ first ∧ (first = r.start ∨ first = q.inMin) := by
    rw [def_first]
    split <;> omega
  rw [← def_first]
  have fits : first + 2 ^ q.alignBits ≤ 2 ^ 32 := by omega
  obtain ⟨low, high, residue⟩ := adjust_spec q.alignOfs fits
  refine ⟨by omega, by omega, residue, fun a le admits => ?_, by omega, by omega⟩
  have := admits.low
  exact adjust_least fits (by omega) admits.residue

end Request

/-- The loop finds the first address in the nodes that meets the request, or none does. -/
theorem allocGenNodes_spec {q : Request} (h : Laid s.mem s.reg (before ++ after))
    (free : s.reg.free = total (before ++ after)) (pos : 0 < q.size) (fuel : Nat)
    (enough : after.length < fuel) (room : ∀ r ∈ after, q.Roomy r.stop) :
    (allocGenNodes q fuel s (placeAfter before) = .ok none ∧
      ∀ r ∈ after, ∀ a, q.Admits a → r.start ≤ a → r.stop < a + q.size) ∨
    ∃ mid r rest s' a, after = mid ++ r :: rest ∧
      (∀ r ∈ mid, ∀ a, q.Admits a → r.start ≤ a → r.stop < a + q.size) ∧
      q.Admits a ∧ r.start ≤ a ∧ a + q.size ≤ r.stop ∧
      (∀ b, q.Admits b → r.start ≤ b → a ≤ b) ∧
      allocGenNodes q fuel s (placeAfter before) = .ok (some (s', a)) ∧
      Taken s s' (before ++ mid) r rest (alignDown a) (alignUp (a % 8 + q.size)) := by
  induction after generalizing before fuel with
  | nil =>
      obtain ⟨fuel, rfl⟩ := Nat.exists_eq_add_of_lt enough
      refine .inl ⟨?_, by simp⟩
      have chain := h.chain
      rw [List.append_nil] at chain
      simp [allocGenNodes, chain.deref]
      rfl
  | cons r after ih =>
      obtain ⟨fuel, rfl⟩ : ∃ f, fuel = f + 1 := ⟨fuel - 1, by omega⟩
      obtain ⟨left, null, size, -, -, -, later, -, -, -, within⟩ := h.parts
      have bound := s.reg.max_lt
      have node : s.deref (placeAfter before) = r.start := left.deref
      have sized : s.size r.start = r.size := size
      obtain ⟨low, above, residue, least, narrow, small⟩ :=
        Request.addr_spec (room r List.mem_cons_self)
      have misfits : q.misfits s r.start ↔ r.stop < q.addr r.start + q.size := by
        simp only [Request.misfits, sized, stop]
        have ofs : (q.addr r.start + 2 ^ 32 - r.start) % 2 ^ 32 = q.addr r.start - r.start := by
          rw [show q.addr r.start + 2 ^ 32 - r.start = q.addr r.start - r.start + 2 ^ 32 by omega,
            Nat.add_mod_right, Nat.mod_eq_of_lt (by omega)]
        rw [ofs]
        by_cases fits : q.size ≤ r.size
        · rw [Nat.mod_eq_of_lt (narrow fits)]
          omega
        · constructor
          · intro _
            omega
          · intro _
            exact .inl (by omega)
      rw [allocGenNodes]
      simp only [node, if_neg null, check_of h.sane_node]
      by_cases fits : q.misfits s r.start
      · have none_here : ∀ a, q.Admits a → r.start ≤ a → r.stop < a + q.size := by
          intro a admits le
          have := misfits.mp fits
          have := least a le admits
          omega
        have step : before ++ r :: after = before ++ [r] ++ after := by simp
        have found := ih (step ▸ h) (step ▸ free) fuel (by simpa using enough)
          fun r' mem => room r' (List.mem_cons_of_mem r mem)
        rw [placeAfter_concat] at found
        rcases found with ⟨none, all⟩ | ⟨mid, r', rest, s', a, rfl, all, admits, le, le', first,
          some, taken⟩
        · refine .inl ⟨?_, ?_⟩
          · simp only [if_pos fits]
            exact none
          · intro r' mem
            rcases List.mem_cons.mp mem with rfl | mem
            · exact none_here
            · exact all r' mem
        · refine .inr ⟨r :: mid, r', rest, s', a, rfl, ?_, admits, le, le', first, ?_,
            by simpa using taken⟩
          · intro r' mem
            rcases List.mem_cons.mp mem with rfl | mem
            · exact none_here
            · exact all r' mem
          · simp only [if_pos fits]
            exact some
      · have inside : q.addr r.start + q.size ≤ r.stop := by
          have := mt misfits.mpr fits
          omega
        have sum : (q.addr r.start + q.size) % 2 ^ 32 = q.addr r.start + q.size :=
          Nat.mod_eq_of_lt (by omega)
        by_cases past : q.inMax < q.addr r.start + q.size
        · -- What is past the constraint here is past it in every later node.
          refine .inl ⟨?_, ?_⟩
          · simp only [if_neg fits, sum, if_pos past]
            rfl
          · intro r' mem a admits le
            have start : r.start ≤ r'.start := by
              rcases List.mem_cons.mp mem with rfl | mem
              · exact le_refl _
              · have := later r' mem
                simp only [stop] at this
                omega
            have := least a (start.trans le) admits
            have := admits.high
            omega
        · obtain ⟨s', taken, spec⟩ := takeAt_spec h free low inside pos
          refine .inr ⟨[], r, after, s', q.addr r.start, rfl, by simp, ⟨above, by omega, residue⟩,
            low, inside, fun b admits le => least b le admits, ?_, by simpa using spec⟩
          simp only [if_neg fits, sum, if_neg past]
          change (takeAt s (placeAfter before) r.start (q.addr r.start) q.size >>= _) = _
          rw [taken]
          rfl

end OsKernel.Lmm
