/-
The heap along every run of calls.

The callers keep to `Legal`; then no assertion of the manager fails and no loop goes on for
ever, the blocks that are out share no byte with each other or with the free lists, and no byte
is lost: `healthy_along`. What is written in a block stays there until its owner changes it
(`contents_kept`), and when all blocks were given back the free lists are those of the start,
node by node (`lists_restored`).
-/

import OsKernel.Malloc.Returns
import OsKernel.Malloc.Boot

namespace OsKernel.Malloc

open OsKernel.Words OsKernel.Lmm OsKernel.Range OsKernel.Run

variable {W S : Set Nat} {regions : List Region} {s : State} {b : Block} {cs : List Call} {m : Mem}

/-! ### No byte is lost -/

/-- The counters of the regions count the free bytes. -/
theorem Stocked.ncard (h : Stocked m regions S) : S.Finite ∧ S.ncard = (regions.map Region.free).sum := by
  induction regions generalizing S with
  | nil =>
      have empty : S = ∅ := Set.eq_empty_of_forall_notMem fun x free => by
        obtain ⟨reg, mem, -⟩ := h.covered x free
        cases mem
      rw [empty]
      simp
  | cons reg regions ih =>
      have apart := List.pairwise_cons.mp h.apart
      obtain ⟨l, laid, free, cover_eq⟩ := h.holds reg List.mem_cons_self
      have whole : ([] ++ reg :: regions).Pairwise
          fun (reg reg' : Region) => reg.max ≤ reg'.min ∨ reg'.max ≤ reg.min := h.apart
      have away : ∀ other ∈ regions, ∀ x ∈ other.bytes, x ∉ reg.bytes := fun other mem x =>
        Stocked.apart_of_ne whole (.inr mem)
      have rest : Stocked m regions (S \ reg.bytes) := by
        refine ⟨fun other mem => ?_, fun x free => ?_, apart.2⟩
        · have same : (S \ reg.bytes) ∩ other.bytes = S ∩ other.bytes := by
            ext x
            constructor
            · rintro ⟨⟨free, -⟩, inside⟩
              exact ⟨free, inside⟩
            · rintro ⟨free, inside⟩
              exact ⟨⟨free, away other mem x inside⟩, inside⟩
          rw [same]
          exact h.holds other (List.mem_cons_of_mem reg mem)
        · obtain ⟨other, mem, inside⟩ := h.covered x free.1
          rcases List.mem_cons.mp mem with rfl | mem
          · exact absurd inside free.2
          · exact ⟨other, mem, inside⟩
      obtain ⟨finite, count⟩ := ih rest
      have split : S = S ∩ reg.bytes ∪ S \ reg.bytes := (Set.inter_union_sdiff S reg.bytes).symm
      have here : (S ∩ reg.bytes).Finite := cover_eq ▸ cover_finite l
      have disjoint : Disjoint (S ∩ reg.bytes) (S \ reg.bytes) :=
        Set.disjoint_sdiff_right.mono_left Set.inter_subset_right
      refine ⟨split ▸ here.union finite, ?_⟩
      rw [List.map_cons, List.sum_cons, free, ← laid.spaced.ncard_cover, cover_eq, ← count,
        ← Set.ncard_union_eq disjoint here finite, ← split]

theorem ncard_out {live : List Block} (apart : live.Pairwise Block.Apart) :
    (out live).Finite ∧ (out live).ncard = (live.map fun b => b.cells.size).sum := by
  induction live with
  | nil =>
      have empty : out [] = ∅ := by
        ext x
        simp [out]
      rw [empty]
      simp
  | cons b live ih =>
      obtain ⟨first, rest⟩ := List.pairwise_cons.mp apart
      obtain ⟨finite, count⟩ := ih rest
      have disjoint : Disjoint (block b.cells) (out live) := by
        refine Set.disjoint_left.mpr fun x inside hit => ?_
        obtain ⟨b', mem, inside'⟩ := hit
        exact Set.disjoint_left.mp (first b' mem) inside inside'
      rw [out_cons]
      refine ⟨(Set.finite_Ico _ _).union finite, ?_⟩
      rw [Set.ncard_union_eq disjoint (Set.finite_Ico _ _) finite, count, List.map_cons,
        List.sum_cons, block, stop, ncard_Ico]

/-- What the callers may count on. -/
structure Healthy (W : Set Nat) (s : State) : Prop where
  /-- Every call returned. -/
  running : s.stopped = none
  /-- The blocks that are out share no byte, and the pointers to them are not null. -/
  apart : s.live.Pairwise fun b b' => Disjoint b.payload b'.payload
  pointers : ∀ b ∈ s.live, b.pointer ≠ 0
  /-- The free list of each region is sorted and melted, its nodes are multiples of 8 within the
  region, its counter is exact, and it covers the bytes of the region that are not out. -/
  lists : ∀ reg ∈ s.heap.lmm.regions, ∃ l, Laid s.heap.mem reg l ∧ reg.free = total l ∧
    cover l = (W \ out s.live) ∩ reg.bytes
  payloads : ∀ b ∈ s.live, b.payload ⊆ W ∩ out s.live
  /-- No byte is lost. -/
  conserved : (s.heap.lmm.regions.map Region.free).sum +
    (s.live.map fun b => b.cells.size).sum = W.ncard
  available : avail s.heap.lmm 0 = .ok (W.ncard - (s.live.map fun b => b.cells.size).sum)

theorem Sound.healthy (h : Sound W regions s) : Healthy W s := by
  have own : ∀ b ∈ s.live, b.payload ⊆ block b.cells := fun b mem =>
    (h.lies b mem).payload_subset
  obtain ⟨finite, free⟩ := Stocked.ncard h.stocked
  obtain ⟨finite', taken⟩ := ncard_out h.apart
  have whole : W \ out s.live ∪ out s.live = W := by
    refine Set.sdiff_union_of_subset ?_
    rintro x ⟨b, mem, inside⟩
    exact (h.lies b mem).owned inside
  have conserved : (s.heap.lmm.regions.map Region.free).sum +
      (s.live.map fun b => b.cells.size).sum = W.ncard := by
    rw [← free, ← taken, ← Set.ncard_union_eq Set.disjoint_sdiff_left finite finite', whole]
  have small : W.ncard ≤ 2 ^ 31 := by
    rw [← ncard_Ico 0 (2 ^ 31)]
    exact Set.ncard_le_ncard (fun x mem => ⟨Nat.zero_le x, by simpa using (h.bounds x mem).2⟩)
      (Set.finite_Ico _ _)
  refine ⟨h.running, ?_, fun b mem => ?_, h.stocked.holds, fun b mem x inside => ?_, conserved, ?_⟩
  · exact h.apart.imp_of_mem fun mem mem' apart => apart.mono (own _ mem) (own _ mem')
  · have bounds := h.pointer_bounds mem
    have pointer := b.addr_le_pointer
    omega
  · exact ⟨(h.lies b mem).owned (own b mem inside), b, mem, own b mem inside⟩
  · have all : (s.heap.lmm.regions.filter fun reg => !reg.lacks 0) = s.heap.lmm.regions :=
      List.filter_eq_self.mpr fun reg _ => by rw [lacks_zero reg, Bool.not_false]
    rw [avail_spec h.stocked (by omega), all]
    congr 1
    omega

/-! ### Runs -/

theorem sound_along (start : Sound W regions s) (legal : StepsMeet step Legal s cs) :
    Along step (Sound W regions) s cs :=
  along_of_stepsMeet (I := Sound W regions) (fun _ sound => sound)
    (fun _ _ sound legal => (fine_step sound legal).sound) start legal

/-- As long as the callers keep to the contract, the heap is healthy. -/
theorem healthy_along (start : Sound W regions s) (legal : StepsMeet step Legal s cs) :
    Along step (Healthy W) s cs :=
  (sound_along start legal).mono fun _ sound => sound.healthy

theorem healthy_along_guest : Along step (Healthy (Set.Ico 0x200000 userMemStart)) guestHeap
    [.malloc 10, .memalign 16 3, .free 0x200004, .calloc 3 7, .realloc 0x200020 40,
      .store 0x200054 1] :=
  healthy_along sound_guestHeap (by decide +kernel)

/-- Two regions that are alike, with the same list. -/
theorem Region.eq_of_alike {reg reg' : Region} (alike : Alike reg reg')
    (nodes : reg.nodes = reg'.nodes) (free : reg.free = reg'.free) : reg = reg' := by
  obtain ⟨min, max, flags, pri⟩ := alike
  cases reg
  cases reg'
  simp_all

theorem regions_unique {regions' : List Region} {m' : Mem} (h : Stocked m regions S)
    (h' : Stocked m' regions' S) (alike : List.Forall₂ Alike regions regions') :
    regions = regions' := by
  have holds := h.holds
  have holds' := h'.holds
  clear h h'
  induction alike with
  | nil => rfl
  | cons head _ ih =>
      rename_i reg reg' regions regions' _
      have here := holds reg List.mem_cons_self
      have here' := holds' reg' List.mem_cons_self
      rw [head.bytes] at here'
      obtain ⟨nodes, free⟩ := here.nodes_unique here'
      rw [Region.eq_of_alike head nodes free,
        ih (fun r mem => holds r (List.mem_cons_of_mem _ mem))
          fun r mem => holds' r (List.mem_cons_of_mem _ mem)]

/-- When all blocks were given back, the regions are those of the start, and so are their lists. -/
theorem lists_restored (start : Sound W regions s) (fresh : s.live = [])
    (legal : StepsMeet step Legal s cs) (back : (run step s cs).live = []) :
    (run step s cs).heap.lmm.regions = s.heap.lmm.regions ∧
      ∀ reg ∈ s.heap.lmm.regions, ∃ l, Laid s.heap.mem reg l ∧
        Laid (run step s cs).heap.mem reg l := by
  have finish := (sound_along start legal).last
  have before := start.stocked
  have after := finish.stocked
  rw [fresh] at before
  rw [back] at after
  have same := regions_unique before after
    (forall₂_alike_trans (forall₂_alike_symm start.alike) finish.alike)
  refine ⟨same.symm, fun reg mem => ?_⟩
  obtain ⟨l, laid, -, covers⟩ := before.holds reg mem
  obtain ⟨l', laid', -, covers'⟩ := after.holds reg (same ▸ mem)
  obtain rfl := laid.spaced.ext laid'.spaced (covers.trans covers'.symm)
  exact ⟨l, laid, laid'⟩

theorem lists_restored_guest :
    (run step guestHeap [.malloc 10, .smalloc 20, .free 0x200004, .sfree 0x200010 20]).heap.lmm.regions =
      guestHeap.heap.lmm.regions :=
  (lists_restored sound_guestHeap (by decide +kernel) (by decide +kernel) (by decide +kernel)).1

/-- A block that is not given back stays out. -/
theorem live_step (sound : Sound W regions s) {c : Call} (legal : Legal s c) (mem : b ∈ s.live)
    (keeps : ∀ p, c.returns p ≠ some b.key) : b ∈ (step s c).live := by
  have next := (fine_step sound legal).sound.running
  simp only [step, sound.running] at next ⊢
  cases ran : c.exec s.heap with
  | error why => simp [ran] at next
  | ok done =>
      refine List.mem_append_right _ (List.mem_filter.mpr ⟨mem, ?_⟩)
      exact decide_eq_true (keeps done.2)

/-- What is in a block stays there, whatever happens to others. -/
theorem contents_kept (start : Sound W regions s) (legal : StepsMeet step Legal s cs)
    (mem : b ∈ s.live) {x : Nat} (inside : x ∈ b.payload)
    (keeps : ∀ c ∈ cs, (∀ p, c.returns p ≠ some b.key) ∧ ∀ v, c ≠ .store x v) :
    b ∈ (run step s cs).live ∧ (run step s cs).heap.mem x = s.heap.mem x := by
  induction cs generalizing s with
  | nil => exact ⟨mem, rfl⟩
  | cons c cs ih =>
      have fine := fine_step start legal.1
      have here := keeps c List.mem_cons_self
      have stays := live_step start legal.1 mem here.1
      have rest := ih fine.sound legal.2 stays fun c' mem' => keeps c' (List.mem_cons_of_mem c mem')
      exact ⟨rest.1, rest.2.trans (fine.keeps b mem stays x inside here.2)⟩

theorem contents_kept_guest :
    (run step (run step guestHeap [.malloc 10, .store 0x200004 7]) [.malloc 3, .free 0x200014]).heap.mem
      0x200004 = (run step guestHeap [.malloc 10, .store 0x200004 7]).heap.mem 0x200004 := by
  have legal : StepsMeet step Legal guestHeap [.malloc 10, .store 0x200004 7] := by decide +kernel
  have start := (sound_along sound_guestHeap legal).last
  refine (contents_kept start (by decide +kernel)
    (show (⟨0x200000, 14, true⟩ : Block) ∈ _ by decide +kernel) (by decide +kernel) ?_).2
  intro c mem
  simp only [List.mem_cons, List.not_mem_nil, or_false] at mem
  rcases mem with rfl | rfl
  · simp [Call.returns]
  · simp [Call.returns, Block.key, Block.pointer]

end OsKernel.Malloc
