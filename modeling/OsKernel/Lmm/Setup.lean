/-
Setting the manager up: `lmm_add_region`, `lmm_add_free`, `lmm_find_free`, `lmm_remove_free`.
-/

import OsKernel.Lmm.Free

namespace OsKernel.Lmm

open OsKernel.Words OsKernel.Range

variable {m : Mem} {regions : List Region} {reg : Region} {S : Set Nat} {l : Manager}
  {addr size x : Nat}

/-- The addresses of all regions. -/
def span (regions : List Region) : Set Nat := {x | ∃ reg ∈ regions, x ∈ reg.bytes}

/-! ### Regions that are alike -/

theorem exists_alike {regions' : List Region} (alike : List.Forall₂ Alike regions regions')
    {reg : Region} (mem : reg ∈ regions) : ∃ reg' ∈ regions', Alike reg reg' := by
  induction alike with
  | nil => cases mem
  | cons head _ ih =>
      rcases List.mem_cons.mp mem with rfl | mem
      · exact ⟨_, List.mem_cons_self, head⟩
      · obtain ⟨reg', mem', alike⟩ := ih mem
        exact ⟨reg', List.mem_cons_of_mem _ mem', alike⟩

theorem forall₂_alike_trans {regions' regions'' : List Region}
    (first : List.Forall₂ Alike regions regions') (next : List.Forall₂ Alike regions' regions'') :
    List.Forall₂ Alike regions regions'' := by
  induction first generalizing regions'' with
  | nil => exact next
  | cons head _ ih =>
      cases next with
      | cons head' rest' => exact .cons (head.trans head') (ih rest')

theorem Alike.symm {reg reg' : Region} (h : Alike reg reg') : Alike reg' reg :=
  ⟨h.min.symm, h.max.symm, h.flags.symm, h.pri.symm⟩

theorem forall₂_alike_symm {regions' : List Region} (alike : List.Forall₂ Alike regions regions') :
    List.Forall₂ Alike regions' regions :=
  (alike.imp fun _ _ h => Alike.symm h).flip

theorem span_alike {regions' : List Region} (alike : List.Forall₂ Alike regions regions') :
    span regions' = span regions := by
  ext x
  constructor
  · rintro ⟨reg', mem, inside⟩
    obtain ⟨reg, mem', like⟩ := exists_alike (forall₂_alike_symm alike) mem
    exact ⟨reg, mem', like.bytes ▸ inside⟩
  · rintro ⟨reg, mem, inside⟩
    obtain ⟨reg', mem', like⟩ := exists_alike alike mem
    exact ⟨reg', mem', like.bytes ▸ inside⟩

/-! ### `lmm_init`, `lmm_add_region` -/

theorem stocked_init (mem : Mem) : Stocked (init mem).mem (init mem).regions ∅ :=
  ⟨fun _ mem => absurd mem List.not_mem_nil, fun _ free => absurd free (Set.notMem_empty _),
    List.Pairwise.nil⟩

/-- The region goes between the others. -/
theorem insertRegion_spec (apart : ∀ r ∈ regions, reg.max ≤ r.min ∨ r.max ≤ reg.min) :
    ∃ left right, regions = left ++ right ∧
      insertRegion reg regions = .ok (left ++ reg :: right) := by
  induction regions with
  | nil => exact ⟨[], [], rfl, rfl⟩
  | cons r regions ih =>
      obtain ⟨left, right, rfl, done⟩ := ih fun r' mem => apart r' (List.mem_cons_of_mem r mem)
      rw [insertRegion]
      split
      · refine ⟨r :: left, right, rfl, ?_⟩
        rw [check_of (apart r List.mem_cons_self), done]
        rfl
      · exact ⟨[], r :: (left ++ right), rfl, rfl⟩

/-- A region without free bytes is added. -/
theorem addRegion_spec (addr size : Nat) (flags : BitVec 32) (pri : Nat)
    (h : Stocked l.mem l.regions S)
    (fits : addr + size < 2 ^ 32) (nonempty : alignUp addr < alignDown (addr + size))
    (apart : ∀ r ∈ l.regions, alignDown (addr + size) ≤ r.min ∨ r.max ≤ alignUp addr) :
    ∃ l', addRegion l addr size flags pri = .ok l' ∧ Stocked l'.mem l'.regions S ∧
      span l'.regions = span l.regions ∪ Set.Ico (alignUp addr) (alignDown (addr + size)) := by
  have wrap : (addr + size) % 2 ^ 32 = addr + size := Nat.mod_eq_of_lt fits
  rw [addRegion]
  simp only [wrap, dif_pos nonempty]
  obtain ⟨reg, hreg⟩ : ∃ reg : Region, reg =
      { nodes := 0, min := alignUp addr, max := alignDown (addr + size), flags := flags, pri := pri,
        free := 0, min_lt := nonempty,
        max_lt := Nat.lt_of_le_of_lt (Nat.div_mul_le_self _ 8) fits,
        min_aligned := Nat.mul_mod_left _ 8, max_aligned := Nat.mul_mod_left _ 8 } := ⟨_, rfl⟩
  have bytes : reg.bytes = Set.Ico (alignUp addr) (alignDown (addr + size)) := by
    rw [hreg]
    rfl
  have parted : ∀ r ∈ l.regions, reg.max ≤ r.min ∨ r.max ≤ reg.min := by
    rw [hreg]
    exact apart
  obtain ⟨left, right, split, done⟩ := insertRegion_spec parted
  refine ⟨⟨l.mem, left ++ reg :: right⟩, ?_, ⟨?_, ?_, ?_⟩, ?_⟩
  · simp only [← hreg, done]
    rfl
  · intro r mem
    by_cases old : r ∈ l.regions
    · exact h.holds r old
    · have new : r = reg := by
        rw [split, List.mem_append, not_or] at old
        simp only [List.mem_append, List.mem_cons] at mem
        tauto
      have empty : S ∩ r.bytes = ∅ := by
        refine Set.eq_empty_of_forall_notMem fun x inside => ?_
        obtain ⟨r', mem', inside'⟩ := h.covered x inside.1
        have away := parted r' mem'
        have here := new ▸ inside.2
        have := here.1
        have := here.2
        have := inside'.1
        have := inside'.2
        omega
      rw [empty, new]
      have nodes : reg.nodes = 0 := by rw [hreg]
      have free : reg.free = 0 := by rw [hreg]
      exact ⟨[], ⟨⟨.nil, by simp, by simp⟩, nodes⟩, free, cover_nil⟩
  · intro x free
    obtain ⟨r, mem, inside⟩ := h.covered x free
    refine ⟨r, ?_, inside⟩
    rw [split] at mem
    simp only [List.mem_append, List.mem_cons] at mem ⊢
    tauto
  · have old := h.apart
    rw [split] at old parted
    obtain ⟨first, second, cross⟩ := List.pairwise_append.mp old
    refine List.pairwise_append.mpr ⟨first, List.pairwise_cons.mpr ⟨fun r mem => ?_, second⟩, ?_⟩
    · exact parted r (List.mem_append_right _ mem)
    · intro r mem r' mem'
      rcases List.mem_cons.mp mem' with rfl | mem'
      · exact (parted r (List.mem_append_left _ mem)).symm
      · exact cross r mem r' mem'
  · ext x
    rw [← bytes, split]
    simp only [span, Set.mem_union, Set.mem_ofPred_eq, List.mem_append, List.mem_cons]
    constructor
    · rintro ⟨r, mem | rfl | mem, inside⟩
      · exact .inl ⟨r, .inl mem, inside⟩
      · exact .inr inside
      · exact .inl ⟨r, .inr mem, inside⟩
    · rintro (⟨r, mem | mem, inside⟩ | inside)
      · exact ⟨r, .inl mem, inside⟩
      · exact ⟨r, .inr (.inr mem), inside⟩
      · exact ⟨reg, .inr (.inl rfl), inside⟩

/-! ### `lmm_add_free` -/

/-- The part of a block that lies in one region becomes free. -/
theorem addFreeTo_spec {lo hi : Nat} (h : Stocked l.mem l.regions S)
    (mem : ∃ reg' ∈ l.regions, Alike reg reg') (aligned : lo % 8 = 0 ∧ hi % 8 = 0) (null : 0 < lo)
    (lt : lo < hi) (out : ∀ x ∈ Set.Ico lo hi ∩ reg.bytes, x ∉ S) :
    ∃ l', addFreeTo lo hi l reg = .ok l' ∧
      Stocked l'.mem l'.regions (S ∪ (Set.Ico lo hi ∩ reg.bytes)) ∧
      List.Forall₂ Alike l.regions l'.regions := by
  have bound := reg.max_lt
  have min8 := reg.min_aligned
  have max8 := reg.max_aligned
  have proper := reg.min_lt
  rw [addFreeTo]
  split
  · rename_i overlap
    obtain ⟨a, ha⟩ : ∃ a, a = if lo < reg.min then reg.min else lo := ⟨_, rfl⟩
    obtain ⟨b, hb⟩ : ∃ b, b = if reg.max < hi then reg.max else hi := ⟨_, rfl⟩
    have left : (a = reg.min ∨ a = lo) ∧ reg.min ≤ a ∧ lo ≤ a := by
      rw [ha]
      split <;> omega
    have right : (b = reg.max ∨ b = hi) ∧ b ≤ reg.max ∧ b ≤ hi := by
      rw [hb]
      split <;> omega
    have less : a < b := by omega
    have cells : cellsOf a (b - a) = ⟨a, b - a⟩ := by
      rw [cellsOf, alignDown, alignUp_eq (by omega)]
      congr 1 <;> omega
    have part : Set.Ico lo hi ∩ reg.bytes = block (cellsOf a (b - a)) := by
      rw [cells]
      ext x
      constructor
      · rintro ⟨⟨low, high⟩, low', high'⟩
        exact ⟨by simp only; omega, by simp only [stop]; omega⟩
      · rintro ⟨low, high⟩
        simp only [stop] at low high
        exact ⟨⟨by omega, by omega⟩, by omega, by omega⟩
    obtain ⟨reg', mem', like⟩ := mem
    have placed : Out l.regions S (cellsOf a (b - a)) := by
      refine ⟨?_, ?_, ?_, ⟨reg', mem', ?_⟩, fun x inside => out x (part ▸ inside)⟩
      · rw [cells]
        simp only
        omega
      · rw [cells]
        simp only
        omega
      · rw [cells]
        simp only
        omega
      · rw [like.bytes, ← part]
        exact Set.inter_subset_right
    obtain ⟨l', done, stocked, alike, -⟩ := free_spec h (by omega) placed
    refine ⟨l', ?_, part ▸ stocked, alike⟩
    simp only [← ha, ← hb, check_of less]
    exact done
  · rename_i apart
    have empty : Set.Ico lo hi ∩ reg.bytes = ∅ := by
      refine Set.eq_empty_of_forall_notMem fun x inside => apart ?_
      have := inside.1.1
      have := inside.1.2
      have := inside.2.1
      have := inside.2.2
      omega
    rw [empty, Set.union_empty]
    exact ⟨l, rfl, h, forall₂_alike_refl _⟩

/-- The loop over the regions. -/
theorem addFreeAll_spec {lo hi : Nat} (h : Stocked l.mem l.regions S)
    (mem : ∀ reg ∈ regions, ∃ reg' ∈ l.regions, Alike reg reg')
    (apart : regions.Pairwise fun reg reg' => reg.max ≤ reg'.min ∨ reg'.max ≤ reg.min)
    (aligned : lo % 8 = 0 ∧ hi % 8 = 0) (null : 0 < lo) (lt : lo < hi)
    (out : ∀ reg ∈ regions, ∀ x ∈ Set.Ico lo hi ∩ reg.bytes, x ∉ S) :
    ∃ l', regions.foldlM (addFreeTo lo hi) l = .ok l' ∧
      Stocked l'.mem l'.regions (S ∪ (Set.Ico lo hi ∩ span regions)) ∧
      List.Forall₂ Alike l.regions l'.regions := by
  induction regions generalizing l S with
  | nil =>
      have empty : Set.Ico lo hi ∩ span [] = ∅ := by
        ext x
        simp [span]
      rw [empty, Set.union_empty]
      exact ⟨l, rfl, h, forall₂_alike_refl _⟩
  | cons reg regions ih =>
      obtain ⟨first, rest⟩ := List.pairwise_cons.mp apart
      obtain ⟨l₁, done, stocked, alike⟩ := addFreeTo_spec h (mem reg List.mem_cons_self) aligned null
        lt (out reg List.mem_cons_self)
      have mem₁ : ∀ r ∈ regions, ∃ reg' ∈ l₁.regions, Alike r reg' := by
        intro r memr
        obtain ⟨r', memr', like⟩ := mem r (List.mem_cons_of_mem reg memr)
        obtain ⟨r'', memr'', like'⟩ := exists_alike alike memr'
        exact ⟨r'', memr'', like.trans like'⟩
      have out₁ : ∀ r ∈ regions, ∀ x ∈ Set.Ico lo hi ∩ r.bytes,
          x ∉ S ∪ (Set.Ico lo hi ∩ reg.bytes) := by
        rintro r memr x inside (free | hit)
        · exact out r (List.mem_cons_of_mem reg memr) x inside free
        · have := first r memr
          have := inside.2.1
          have := inside.2.2
          have := hit.2.1
          have := hit.2.2
          omega
      obtain ⟨l', done', stocked', alike'⟩ := ih stocked mem₁ rest out₁
      have whole : S ∪ (Set.Ico lo hi ∩ span (reg :: regions)) =
          S ∪ (Set.Ico lo hi ∩ reg.bytes) ∪ (Set.Ico lo hi ∩ span regions) := by
        ext x
        simp only [span, Set.mem_union, Set.mem_inter_iff, Set.mem_ofPred_eq, List.mem_cons]
        constructor
        · rintro (free | ⟨inside, r, rfl | mem, hit⟩)
          · exact .inl (.inl free)
          · exact .inl (.inr ⟨inside, hit⟩)
          · exact .inr ⟨inside, r, mem, hit⟩
        · rintro ((free | ⟨inside, hit⟩) | ⟨inside, r, mem, hit⟩)
          · exact .inl free
          · exact .inr ⟨inside, reg, .inl rfl, hit⟩
          · exact .inr ⟨inside, r, .inr mem, hit⟩
      refine ⟨l', ?_, whole ▸ stocked', forall₂_alike_trans alike alike'⟩
      rw [List.foldlM_cons, done]
      exact done'

/-- `lmm_add_free` makes the whole cells of a block free that lie in the regions. -/
theorem addFree_spec (lo hi : Nat) (h : Stocked l.mem l.regions S)
    (start : lo = alignUp addr) (finish : hi = alignDown (addr + size))
    (fits : addr + size < 2 ^ 32) (le : lo ≤ hi) (null : 0 < lo)
    (out : ∀ x ∈ Set.Ico lo hi, x ∉ S) :
    ∃ l', addFree l addr size = .ok l' ∧
      Stocked l'.mem l'.regions (S ∪ (Set.Ico lo hi ∩ span l.regions)) ∧
      List.Forall₂ Alike l.regions l'.regions := by
  have wrap : (addr + size) % 2 ^ 32 = addr + size := Nat.mod_eq_of_lt fits
  have aligned : lo % 8 = 0 ∧ hi % 8 = 0 := by
    rw [start, finish]
    exact ⟨Nat.mul_mod_left _ 8, Nat.mul_mod_left _ 8⟩
  rw [addFree]
  simp only [wrap, ← start, ← finish, check_of le]
  change ∃ l', (if hi = lo then pure l else l.regions.foldlM (addFreeTo lo hi) l) = .ok l' ∧ _
  split
  · rename_i same
    rw [same, Set.Ico_self, Set.empty_inter, Set.union_empty]
    exact ⟨l, rfl, h, forall₂_alike_refl _⟩
  · exact addFreeAll_spec h (fun reg mem => ⟨reg, mem, Alike.refl reg⟩) h.apart aligned null
      (by omega) fun _ _ x inside => out x inside.1

/-! ### `lmm_find_free` -/

/-- In a region, the first free byte from `start` on that lies below the lowest one so far. -/
structure Finds (T : Set Nat) (flags : BitVec 32) (start : Nat) (low low' : Lowest) : Prop where
  less : low'.addr < low.addr
  ge : start ≤ low'.addr
  pos : 0 < low'.size
  row : block ⟨low'.addr, low'.size⟩ ⊆ T
  least : ∀ x ∈ T, start ≤ x → low'.addr ≤ x
  flags : low'.flags = flags
  aligned : low'.addr % 8 = 0

theorem findFreeNodes_spec {s : At} {before after : List Range} {p fuel start : Nat} {low : Lowest}
    (laid : Laid s.mem s.reg (before ++ after)) (head : Seg s.mem p after 0)
    (passed : ∀ r ∈ before, r.stop ≤ start) (start8 : start % 8 = 0)
    (fresh : start ≤ low.addr ∧ low.addr ∉ cover (before ++ after)) (enough : after.length < fuel) :
    ∃ low', findFreeNodes start fuel s p low = .ok low' ∧
      (low' = low ∧ (∀ x ∈ cover (before ++ after), start ≤ x → low.addr ≤ x) ∨
        Finds (cover (before ++ after)) s.reg.flags start low low') := by
  have old : ∀ x ∈ cover before, x < start := by
    rintro x ⟨r, mem, -, high⟩
    have := passed r mem
    omega
  induction after generalizing before p fuel with
  | nil =>
      obtain ⟨fuel, rfl⟩ := Nat.exists_eq_add_of_lt enough
      have null : p = 0 := head
      refine ⟨low, ?_, .inl ⟨rfl, fun x free le => ?_⟩⟩
      · simp only [List.length_nil, Nat.zero_add, findFreeNodes, null, if_true]
        rfl
      · rw [List.append_nil] at free
        have := old x free
        omega
  | cons r after ih =>
      obtain ⟨fuel, rfl⟩ : ∃ f, fuel = f + 1 := ⟨fuel - 1, by omega⟩
      obtain ⟨rfl, null, size, rest⟩ := head
      have within := laid.within r (by simp)
      have eight := laid.eight_le (r := r) (by simp)
      have aligned := laid.aligned r (by simp)
      have bound := s.reg.max_lt
      have later : ∀ x ∈ cover (r :: after), r.start ≤ x := fun x free =>
        (spaced_append.mp laid.spaced).2.1.start_le free
      have sized : s.size r.start = r.size := size
      have split : ∀ x ∈ cover (before ++ r :: after), start ≤ x → x ∈ cover (r :: after) := by
        intro x free le
        rw [cover_append] at free
        rcases free with free | free
        · have := old x free
          omega
        · exact free
      simp only [stop] at within
      have wrap : (r.start + r.size) % 2 ^ 32 = r.start + r.size := Nat.mod_eq_of_lt (by omega)
      rw [findFreeNodes, if_neg null, check_of within.1, check_of (by omega), sized, wrap]
      simp only [bind, Except.bind]
      by_cases past : low.addr ≤ r.start
      · rw [if_pos past]
        exact ⟨low, rfl, .inl ⟨rfl, fun x free le => past.trans (later x (split x free le))⟩⟩
      · rw [if_neg past]
        by_cases hits : start < r.start + r.size
        · rw [if_pos hits]
          by_cases above : start < r.start
          · rw [if_pos above]
            refine ⟨_, rfl, .inr ⟨by simp only; omega, above.le, by simp only; omega, ?_,
              fun x free le => later x (split x free le), rfl, aligned.1⟩⟩
            exact fun x inside => ⟨r, by simp, inside⟩
          · rw [if_neg above]
            -- The lowest address so far is not in this range.
            have lower : start < low.addr := by
              refine lt_of_le_of_ne fresh.1 fun same => fresh.2 ⟨r, by simp, by omega, ?_⟩
              simp only [stop]
              omega
            refine ⟨_, rfl, .inr ⟨lower, le_refl _, by simp only; omega, ?_, fun x _ le => le, rfl,
              start8⟩⟩
            rintro x ⟨low, high⟩
            simp only [stop] at low high
            exact ⟨r, by simp, by omega, by simp only [stop]; omega⟩
        · rw [if_neg hits]
          have step : before ++ r :: after = before ++ [r] ++ after := by simp
          have next : s.next r.start = word s.mem r.start := rfl
          rw [step, next]
          refine ih (step ▸ laid) rest (fun q mem => ?_) (step ▸ fresh) (by simpa using enough) ?_
          · rcases List.mem_append.mp mem with mem | mem
            · exact passed q mem
            · rw [List.mem_singleton.mp mem]
              simp only [stop]
              omega
          · intro x free
            rw [cover_append] at free
            rcases free with free | ⟨q, mem, low', high⟩
            · exact old x free
            · rw [List.mem_singleton.mp mem] at high
              simp only [stop] at high
              omega

/-- One region. -/
theorem findFreeIn_spec {start : Nat} (low : Lowest) {T : Set Nat} (h : Holds m reg T)
    (start8 : start % 8 = 0) (fresh : start ≤ low.addr ∧ low.addr ∉ T) :
    ∃ low', findFreeIn m start low reg = .ok low' ∧
      (low' = low ∧ (∀ x ∈ T, start ≤ x → low.addr ≤ x) ∨ Finds T reg.flags start low low') := by
  obtain ⟨l, laid, -, rfl⟩ := h
  rw [findFreeIn]
  split
  · rename_i skip
    refine ⟨low, rfl, .inl ⟨rfl, fun x free le => ?_⟩⟩
    have inside := laid.cover_subset free
    have := inside.1
    have := inside.2
    rcases skip with empty | below | above
    · rcases laid.head with ⟨rfl, -⟩ | ⟨r, rest, -, nodes, null⟩
      · simp at free
      · exact absurd (nodes.symm.trans empty) null
    · omega
    · omega
  · have first : Laid m reg ([] ++ l) := laid
    exact findFreeNodes_spec (s := ⟨m, reg⟩) first laid.chain (by simp) start8 fresh
      laid.length_lt

/-- The lowest free byte of some regions from `start` on, with what is free behind it. -/
structure Lowest.Is (m : Mem) (regions : List Region) (S : Set Nat) (start : Nat) (low : Lowest) :
    Prop where
  ge : start ≤ low.addr
  aligned : low.size = 0 ∨ low.addr % 8 = 0
  least : ∀ x ∈ S, (∃ reg ∈ regions, x ∈ reg.bytes) → start ≤ x → low.addr ≤ x
  found : low.size = 0 ∧ low.addr = 2 ^ 32 - 1 ∨ 0 < low.size ∧ ∃ reg ∈ regions,
    block ⟨low.addr, low.size⟩ ⊆ S ∩ reg.bytes ∧ low.flags = reg.flags

/-- The loop over the regions. -/
theorem findFreeAll_spec {start : Nat} (low : Lowest) {left right : List Region}
    (h : Stocked m (left ++ right) S) (start8 : start % 8 = 0) (is : low.Is m left S start) :
    ∃ low', right.foldlM (findFreeIn m start) low = .ok low' ∧
      low'.Is m (left ++ right) S start := by
  induction right generalizing left low with
  | nil => exact ⟨low, rfl, by rwa [List.append_nil]⟩
  | cons reg right ih =>
      have step : left ++ reg :: right = left ++ [reg] ++ right := by simp
      have fresh : low.addr ∉ S ∩ reg.bytes := by
        rintro ⟨-, inside⟩
        rcases is.found with ⟨-, last⟩ | ⟨pos, r, mem, row, -⟩
        · have := inside.2
          have := reg.max_lt
          have := reg.max_aligned
          omega
        · have first := (row ⟨le_refl _, Nat.lt_add_of_pos_right pos⟩).2
          exact Stocked.apart_of_ne h.apart (.inl mem) first inside
      obtain ⟨low₁, done, outcome⟩ := findFreeIn_spec low (h.holds reg (by simp)) start8
        ⟨is.ge, fresh⟩
      have is₁ : low₁.Is m (left ++ [reg]) S start := by
        rcases outcome with ⟨rfl, none⟩ | finds
        · refine ⟨is.ge, is.aligned, ?_, is.found.imp_right ?_⟩
          · rintro x free ⟨r, mem, inside⟩ le
            rcases List.mem_append.mp mem with mem | mem
            · exact is.least x free ⟨r, mem, inside⟩ le
            · rw [List.mem_singleton.mp mem] at inside
              exact none x ⟨free, inside⟩ le
          · rintro ⟨pos, r, mem, row⟩
            exact ⟨pos, r, List.mem_append_left _ mem, row⟩
        · refine ⟨finds.ge, .inr finds.aligned, ?_,
            .inr ⟨finds.pos, reg, by simp, finds.row, finds.flags⟩⟩
          rintro x free ⟨r, mem, inside⟩ le
          rcases List.mem_append.mp mem with mem | mem
          · exact finds.less.le.trans (is.least x free ⟨r, mem, inside⟩ le)
          · rw [List.mem_singleton.mp mem] at inside
            exact finds.least x ⟨free, inside⟩ le
      obtain ⟨low', done', is'⟩ := ih low₁ (step ▸ h) is₁
      refine ⟨low', ?_, step ▸ is'⟩
      rw [List.foldlM_cons, done]
      exact done'

/-- `lmm_find_free` finds the lowest free byte from an address on, rounded up to a cell. -/
theorem findFree_spec (addr : Nat) (h : Stocked l.mem l.regions S) (fits : addr + 7 < 2 ^ 32) :
    ∃ low, findFree l addr = .ok low ∧ alignUp addr ≤ low.addr ∧
      (low.size = 0 ∨ low.addr % 8 = 0) ∧ (∀ x ∈ S, alignUp addr ≤ x → low.addr ≤ x) ∧
      (low.size = 0 ∧ low.addr = 2 ^ 32 - 1 ∨ 0 < low.size ∧ ∃ reg ∈ l.regions,
        block ⟨low.addr, low.size⟩ ⊆ S ∩ reg.bytes ∧ low.flags = reg.flags) := by
  have start8 : alignUp addr % 8 = 0 := Nat.mul_mod_left _ 8
  have small : alignUp addr ≤ 2 ^ 32 - 1 := by
    rw [alignUp_eq fits]
    omega
  have all : Stocked l.mem ([] ++ l.regions) S := h
  obtain ⟨low, done, is⟩ := findFreeAll_spec ⟨2 ^ 32 - 1, 0, 0⟩ all start8
    ⟨small, .inl rfl, fun _ _ none => by simp at none, .inl ⟨rfl, rfl⟩⟩
  exact ⟨low, done, is.ge, is.aligned, fun x free => is.least x free (h.covered x free), is.found⟩

/-! ### `lmm_remove_free` -/

theorem lacks_self (reg : Region) : reg.lacks reg.flags = false := by
  simp [Region.lacks]

/-- The lowest free byte and what is free behind it is taken from the region that has it. -/
theorem removeOne_spec {low : Lowest} {size : Nat} (h : Stocked l.mem l.regions S) (pos : 0 < size)
    (le : size ≤ low.size) (found : ∃ reg ∈ l.regions,
      block ⟨low.addr, low.size⟩ ⊆ S ∩ reg.bytes ∧ low.flags = reg.flags) :
    ∃ l', allocGen l size low.flags 0 0 low.addr size = .ok (l', low.addr) ∧
      Stocked l'.mem l'.regions (S \ block (cellsOf low.addr size)) ∧
      List.Forall₂ Alike l.regions l'.regions := by
  obtain ⟨reg, mem, row, flags⟩ := found
  have final : low.addr + size - 1 ∈ block ⟨low.addr, low.size⟩ := by
    constructor
    · simp only
      omega
    · simp only [stop]
      omega
  have last := (row final).2.2
  have bound := reg.max_lt
  have max8 := reg.max_aligned
  have room : ∀ x ∈ S, Request.Roomy ⟨size, 0, 0, low.addr, low.addr + size⟩ (x + 1) := by
    intro x free
    obtain ⟨r, -, inside⟩ := h.covered x free
    have := inside.2
    have := r.max_lt
    have := r.max_aligned
    exact ⟨by simp only [pow_zero]; omega, .inr (by simp only [pow_zero]; omega)⟩
  rcases allocGen_spec low.flags 0 0 low.addr size h pos (by omega) room with
    ⟨-, none⟩ | ⟨l', a, got, allots⟩
  · refine absurd ⟨⟨le_refl _, le_refl _, Nat.modEq_one⟩, fun x inside => row ⟨inside.1, ?_⟩⟩
      (none reg mem (flags ▸ lacks_self reg) low.addr)
    have := inside.2
    simp only [stop] at *
    omega
  · obtain ⟨left, reg', right, -, -, -, suits, -⟩ := allots.first
    have lower : low.addr ≤ a := suits.1.low
    have upper : a + size ≤ low.addr + size := suits.1.high
    obtain rfl : a = low.addr := by omega
    exact ⟨l', got, allots.stocked, allots.alike⟩

/-- Nothing is left to take when all free bytes from the first address on lie behind the last. -/
theorem sdiff_of_none {a b : Nat} (h : Stocked l.mem l.regions S) (fits : a + 7 < 2 ^ 32)
    (fits' : b + 7 < 2 ^ 32) (none : ∀ x ∈ S, alignUp a ≤ x → b ≤ x) :
    S \ Set.Ico (alignUp a) (alignUp b) = S := by
  have up := alignUp_eq fits
  have up' := alignUp_eq fits'
  refine sdiff_eq_left.mpr (Set.disjoint_left.mpr fun x free inside => ?_)
  have above := none x free inside.1
  obtain ⟨reg, mem, hit⟩ := h.covered x free
  have cell := (h.holds reg mem).cells ⟨free, hit⟩
  have base := cell.2.2 (x / 8 * 8) (by omega)
  have := none _ base.1 (by have := inside.1; omega)
  have := inside.2
  omega

/-- What a round takes and what the later ones take. -/
theorem sdiff_of_round {a b c n : Nat} (aligned : c % 8 = 0) (le : alignUp a ≤ c)
    (least : ∀ x ∈ S, alignUp a ≤ x → c ≤ x) (fits : c + n + 7 < 2 ^ 32) (high : c + n ≤ b)
    (fits' : b + 7 < 2 ^ 32) :
    (S \ block ⟨c, (n + 7) / 8 * 8⟩) \ Set.Ico (alignUp c) (alignUp b) =
      S \ Set.Ico (alignUp a) (alignUp b) := by
  have upc := alignUp_eq (n := c) (by omega)
  have upb := alignUp_eq fits'
  ext x
  simp only [Set.mem_sdiff, Set.mem_Ico, block, stop]
  constructor
  · rintro ⟨⟨free, out⟩, out'⟩
    refine ⟨free, fun inside => out' ⟨?_, inside.2⟩⟩
    have := least x free inside.1
    omega
  · rintro ⟨free, out⟩
    exact ⟨⟨free, fun inside => out ⟨by omega, by omega⟩⟩,
      fun inside => out ⟨by omega, inside.2⟩⟩

/-- Everything free between the two addresses is taken. -/
theorem removeLoop_spec {first rend fuel rstart t : Nat} (h : Stocked l.mem l.regions S)
    (fits : rend + 7 < 2 ^ 32) (le : first ≤ rstart) (small : rstart ≤ rend)
    (from_t : ∀ x ∈ S, alignUp rstart ≤ x → t ≤ x) (enough : 0 < fuel ∧ 2 ^ 32 ≤ t + 8 * fuel) :
    ∃ l', removeLoop first rend fuel l rstart = .ok l' ∧
      Stocked l'.mem l'.regions (S \ Set.Ico (alignUp rstart) (alignUp rend)) ∧
      List.Forall₂ Alike l.regions l'.regions := by
  induction fuel generalizing l S rstart t with
  | zero => exact absurd enough.1 (lt_irrefl 0)
  | succ fuel ih =>
      have up := alignUp_eq (n := rstart) (by omega)
      have up' := alignUp_eq fits
      rw [removeLoop]
      by_cases goes : rstart < rend
      · rw [if_pos goes]
        obtain ⟨low, done, ge, aligned, least, found⟩ := findFree_spec rstart h (by omega)
        rw [done]
        simp only [bind, Except.bind]
        rw [check_of (by omega)]
        simp only
        by_cases ends : low.size = 0 ∨ rend ≤ low.addr
        · rw [if_pos ends, sdiff_of_none h (by omega) fits]
          · exact ⟨l, rfl, h, forall₂_alike_refl _⟩
          · intro x free le
            have above := least x free le
            rcases ends with zero | past
            · rcases found with ⟨-, last⟩ | ⟨pos, -⟩
              · omega
              · omega
            · omega
        · rw [if_neg ends]
          have taken := found.resolve_left fun none => ends (.inl none.1)
          have low8 : low.addr % 8 = 0 := aligned.resolve_left fun zero => ends (.inl zero)
          obtain ⟨reg, mem, row, flags⟩ := taken.2
          have final : low.addr + low.size - 1 ∈ block ⟨low.addr, low.size⟩ := by
            constructor
            · simp only
              omega
            · simp only [stop]
              omega
          have last := (row final).2.2
          have start := (row ⟨le_refl low.addr, Nat.lt_add_of_pos_right taken.1⟩).1
          have bound := reg.max_lt
          have max8 := reg.max_aligned
          have wrap : (low.addr + low.size) % 2 ^ 32 = low.addr + low.size :=
            Nat.mod_eq_of_lt (by omega)
          rw [wrap]
          obtain ⟨n, hn⟩ : ∃ n, n = if rend < low.addr + low.size then rend - low.addr else low.size :=
            ⟨_, rfl⟩
          have size : 0 < n ∧ n ≤ low.size ∧ low.addr + n ≤ rend ∧
              (n = low.size ∨ low.addr + n = rend) := by
            rw [hn]
            split <;> omega
          obtain ⟨l₁, got, stocked, alike⟩ := removeOne_spec h size.1 size.2.1 taken.2
          rw [← hn, got]
          simp only [check_of]
          have cells : cellsOf low.addr n = ⟨low.addr, (n + 7) / 8 * 8⟩ := by
            rw [cellsOf, alignDown, low8, Nat.zero_add, alignUp_eq (by omega)]
            congr 1
            omega
          rw [cells] at stocked
          have upl := alignUp_eq (n := low.addr) (by omega)
          have below := from_t low.addr start ge
          obtain ⟨l', done', stocked', alike'⟩ := ih (t := low.addr + 8) stocked
            (show first ≤ low.addr by omega) (show low.addr ≤ rend by omega)
            (by
              rintro x ⟨free, out⟩ le
              by_contra near
              refine out ⟨by simp only; omega, ?_⟩
              simp only [stop]
              omega)
            (by omega)
          refine ⟨l', done', ?_, forall₂_alike_trans alike alike'⟩
          have same := sdiff_of_round (b := rend) low8 ge least (by omega) size.2.2.1 fits
          exact same ▸ stocked'
      · rw [if_neg goes]
        have empty : alignUp rend ≤ alignUp rstart := by omega
        rw [Set.Ico_eq_empty (by omega), Set.sdiff_empty]
        exact ⟨l, rfl, h, forall₂_alike_refl _⟩

/-- `lmm_remove_free` takes everything that is free in a block. -/
theorem removeFree_spec (addr size : Nat) (h : Stocked l.mem l.regions S) (pos : 0 < size)
    (fits : addr + size + 7 < 2 ^ 32) :
    ∃ l', removeFree l addr size = .ok l' ∧
      Stocked l'.mem l'.regions (S \ Set.Ico (alignUp addr) (alignUp (addr + size))) ∧
      List.Forall₂ Alike l.regions l'.regions := by
  have wrap : (addr + size) % 2 ^ 32 = addr + size := Nat.mod_eq_of_lt (by omega)
  rw [removeFree]
  simp only [wrap, check_of (show addr < addr + size by omega)]
  exact removeLoop_spec (t := 0) h fits (le_refl _) (by omega) (fun _ _ _ => Nat.zero_le _)
    ⟨by decide, by decide⟩

/-! ### `lmm_avail` -/

theorem availIn_spec {flags : BitVec 32} {count : Nat} {T : Set Nat} (h : Holds m reg T)
    (small : count + reg.free < 2 ^ 32) :
    availIn flags count reg = .ok (if reg.lacks flags then count else count + reg.free) := by
  obtain ⟨l, laid, free, -⟩ := h
  have most := free ▸ laid.total_le
  rw [availIn]
  rcases laid.head with ⟨rfl, nodes⟩ | ⟨r, rest, rfl, nodes, null⟩
  · have zero : reg.free = 0 := free
    rw [check_of (iff_of_true nodes zero), zero, Nat.add_zero, ite_self]
    exact if_pos nodes
  · have some : reg.nodes ≠ 0 := nodes ▸ null
    have node := laid.first_node some
    have eight := laid.eight_le (r := r) List.mem_cons_self
    rw [total_cons] at free
    have both : reg.nodes = 0 ↔ reg.free = 0 := iff_of_false some (by omega)
    have bounds : reg.min ≤ reg.nodes ∧ reg.nodes < reg.max := by omega
    rw [check_of both, if_neg some, check_of bounds, check_of most, Nat.mod_eq_of_lt small]
    rfl

theorem availAll_spec {flags : BitVec 32} (count : Nat) (h : ∀ reg ∈ regions, ∃ T, Holds m reg T)
    (small : count + (regions.map Region.free).sum < 2 ^ 32) :
    regions.foldlM (availIn flags) count =
      .ok (count + ((regions.filter fun reg => !reg.lacks flags).map Region.free).sum) := by
  induction regions generalizing count with
  | nil => rfl
  | cons reg regions ih =>
      obtain ⟨T, holds⟩ := h reg List.mem_cons_self
      rw [List.map_cons, List.sum_cons] at small
      have rest := fun count => ih count fun r mem => h r (List.mem_cons_of_mem reg mem)
      rw [List.foldlM_cons, availIn_spec holds (by omega)]
      change regions.foldlM (availIn flags) _ = _
      cases lacks : reg.lacks flags with
      | true =>
          rw [if_pos rfl, rest count (by omega), List.filter_cons_of_neg (by simp [lacks])]
      | false =>
          rw [if_neg Bool.false_ne_true, rest _ (by omega), List.filter_cons_of_pos (by simp [lacks]),
            List.map_cons, List.sum_cons, Nat.add_assoc]

/-- `lmm_avail` adds the counters of the regions that have the flags. -/
theorem avail_spec {flags : BitVec 32} (h : Stocked l.mem l.regions S)
    (small : (l.regions.map Region.free).sum < 2 ^ 32) :
    avail l flags = .ok ((l.regions.filter fun reg => !reg.lacks flags).map Region.free).sum := by
  rw [avail, availAll_spec 0 (fun reg mem => ⟨_, h.holds reg mem⟩) (by omega), Nat.zero_add]

end OsKernel.Lmm
