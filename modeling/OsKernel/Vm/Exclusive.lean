/-
Frames are exclusive: the invariant that ties the pool of free frames to the
page tables of all processes.

`Spaces.Wf` is the invariant on the abstract state. It is kept by every change
of one page (`Wf.setPage`), by taking a frame out of the pool (`Wf.tail`) and by
giving one back that no directory maps (`Wf.insert`); the seven operations of
the page directory manager are made of these. `frameInv_run` reads the invariant
back on the module's own state, after every sequence of operations and for every
outcome of the allocations.
-/

import OsKernel.Lib.Run
import OsKernel.Vm.Spaces
import Mathlib.Data.List.Pairwise

namespace OsKernel.Vm

/-- A user page of a live space is mapped to the frame. -/
def Spaces.Maps (s : Spaces) (d page frame : Nat) : Prop :=
  UserPage page ∧ ∃ space, s.space d = some space ∧ (space page).frame? = some frame

structure Spaces.Wf (s : Spaces) : Prop where
  sorted : s.free.Pairwise (· < ·)
  pool : ∀ f ∈ s.free, pageSize ∣ f ∧ userPageStart ≤ f ∧ f ≠ zeroFrame
  user : ∀ d page f, s.Maps d page f → userPageStart ≤ f
  unmapped : ∀ d page f, s.Maps d page f → f ≠ zeroFrame → f ∉ s.free
  injective : ∀ d₁ d₂ page₁ page₂ f, s.Maps d₁ page₁ f → s.Maps d₂ page₂ f → f ≠ zeroFrame →
    d₁ = d₂ ∧ page₁ = page₂
  kernel : ∀ d space page, s.space d = some space → page < kernelPageCount →
    space page = .mapped (kernelPte page)
  fresh : ∀ d, s.next ≤ d → s.space d = none

/-! ### The changes the operations are made of -/

/-- Who maps what after one page was put into a new state. -/
theorem maps_setPage {s : Spaces} {d : Nat} {space : Nat → PageState} {page : Nat}
    {state : PageState} (hd : s.space d = some space) {e q f : Nat} :
    (s.setPage d space page state).Maps e q f →
      (e = d ∧ q = page ∧ UserPage page ∧ state.frame? = some f) ∨
        (¬ (e = d ∧ q = page) ∧ s.Maps e q f) := by
  rintro ⟨hq, space', hs, hf⟩
  simp only [Spaces.setPage] at hs
  by_cases he : e = d
  · subst he
    simp only [Function.update_self, Option.some.injEq] at hs
    subst hs
    by_cases hp : q = page
    · subst hp
      rw [Function.update_self] at hf
      exact .inl ⟨rfl, rfl, hq, hf⟩
    · rw [Function.update_of_ne hp] at hf
      exact .inr ⟨fun h => hp h.2, hq, space, hd, hf⟩
  · rw [Function.update_of_ne he] at hs
    exact .inr ⟨fun h => he h.1, hq, space', hs, hf⟩

/-- A page may be put into any state that maps it to no frame, to the zero frame,
or to a user frame that neither the pool nor another page has. -/
theorem Spaces.Wf.setPage {s : Spaces} (wf : s.Wf) {d : Nat} {space : Nat → PageState}
    {page : Nat} {state : PageState} (hd : s.space d = some space) (hp : UserPage page)
    (user : ∀ f, state.frame? = some f → userPageStart ≤ f)
    (owned : ∀ f, state.frame? = some f → f ≠ zeroFrame →
      f ∉ s.free ∧ ∀ e q, s.Maps e q f → e = d ∧ q = page) :
    (s.setPage d space page state).Wf where
  sorted := wf.sorted
  pool := wf.pool
  user e q f h := by
    rcases maps_setPage hd h with ⟨-, -, -, hf⟩ | ⟨-, h⟩
    · exact user f hf
    · exact wf.user e q f h
  unmapped e q f h nz := by
    rcases maps_setPage hd h with ⟨-, -, -, hf⟩ | ⟨-, h⟩
    · exact (owned f hf nz).1
    · exact wf.unmapped e q f h nz
  injective e₁ e₂ q₁ q₂ f h₁ h₂ nz := by
    rcases maps_setPage hd h₁ with ⟨rfl, rfl, -, hf⟩ | ⟨other₁, old₁⟩ <;>
      rcases maps_setPage hd h₂ with ⟨rfl, rfl, -, hf'⟩ | ⟨other₂, old₂⟩
    · exact ⟨rfl, rfl⟩
    · exact absurd ((owned f hf nz).2 _ _ old₂) other₂
    · exact absurd ((owned f hf' nz).2 _ _ old₁) other₁
    · exact wf.injective _ _ _ _ f old₁ old₂ nz
  kernel e space' q hs hq := by
    simp only [Spaces.setPage] at hs
    by_cases he : e = d
    · subst he
      simp only [Function.update_self, Option.some.injEq] at hs
      have ne : q ≠ page := by rintro rfl; exact absurd hp.1 (by omega)
      rw [← hs, Function.update_of_ne ne]
      exact wf.kernel e space q hd hq
    · rw [Function.update_of_ne he] at hs
      exact wf.kernel e space' q hs hq
  fresh e he := by
    have ne : e ≠ d := by
      rintro rfl
      exact absurd (wf.fresh e he) (by simp [hd])
    simp only [Spaces.setPage, Function.update_of_ne ne]
    exact wf.fresh e he

/-- Taking the head out of the pool. -/
theorem Spaces.Wf.tail {s : Spaces} (wf : s.Wf) {frame : Nat} {rest : List Nat}
    (h : s.free = frame :: rest) : { s with free := rest }.Wf where
  sorted := by
    have := wf.sorted
    rw [h] at this
    exact (List.pairwise_cons.mp this).2
  pool f hf := wf.pool f (h ▸ List.mem_cons_of_mem frame hf)
  user := wf.user
  unmapped d page f hm nz hf := wf.unmapped d page f hm nz (h ▸ List.mem_cons_of_mem frame hf)
  injective := wf.injective
  kernel := wf.kernel
  fresh := wf.fresh

/-- Giving a frame to the pool that no directory maps. -/
theorem Spaces.Wf.insert {s : Spaces} (wf : s.Wf) {frame : Nat} {free : List Nat}
    (h : InsertedAt frame s.free free) (aligned : pageSize ∣ frame)
    (user : userPageStart ≤ frame) (nz : frame ≠ zeroFrame)
    (nobody : ∀ d page, ¬ s.Maps d page frame) : { s with free := free }.Wf := by
  obtain ⟨before, after, old, new, bounds⟩ := h
  obtain ⟨below, above⟩ := bounds wf.sorted
  have mem : ∀ f, f ∈ free → f = frame ∨ f ∈ s.free := by
    intro f hf
    rw [new, List.mem_append, List.mem_cons] at hf
    rw [old, List.mem_append]
    tauto
  refine ⟨?_, ?_, wf.user, ?_, wf.injective, wf.kernel, wf.fresh⟩
  · have sorted := wf.sorted
    rw [old, List.pairwise_append] at sorted
    simp only [new, List.pairwise_append, List.pairwise_cons, List.mem_cons]
    refine ⟨sorted.1, ⟨above, sorted.2.1⟩, ?_⟩
    rintro x hx y (rfl | hy)
    · exact below x hx
    · exact sorted.2.2 x hx y hy
  · intro f hf
    rcases mem f hf with rfl | hf
    · exact ⟨aligned, user, nz⟩
    · exact wf.pool f hf
  · intro d page f hm hz hf
    rcases mem f hf with rfl | hf
    · exact nobody d page hm
    · exact wf.unmapped d page f hm hz hf

theorem frame_aligned (n : Nat) : n * pageSize / pageSize * pageSize = n * pageSize := by
  simp only [pageSize]; omega

/-- `free_frame` of a frame that no directory maps keeps the invariant. -/
theorem Spaces.Wf.freeFrame {vm : VmState} (wf : vm.abs.Wf) {n : Nat}
    (nobody : n * pageSize ≠ zeroFrame → ∀ d page, ¬ vm.abs.Maps d page (n * pageSize)) :
    (freeFrame vm (n * pageSize)).2.abs.Wf := by
  have spec := freeFrame_spec vm (n * pageSize)
  rw [frame_aligned] at spec
  rcases spec with h | ⟨user, nz, free, inserted, h⟩
  · rw [h]; exact wf
  · rw [h]; exact wf.insert inserted (Nat.dvd_mul_left _ _) user nz (nobody nz)

/-- The fresh directory of `construct_page_dir` maps the kernel and no user page. -/
theorem stateOf_freshDir (page : Nat) : stateOf freshDir page =
    if page < kernelPageCount then .mapped (kernelPte page) else .unmapped .unavailable := by
  have count : kernelPageCount = 4096 := rfl
  have tables : kernelPageTableCount = 4 := rfl
  have entries : pteCount = 1024 := rfl
  simp only [stateOf, freshDir, count, tables, entries]
  by_cases h : page < 4096
  · have hi : page / 1024 < 4 := by omega
    have eq : page / 1024 * 1024 + page % 1024 = page := by omega
    simp only [h, hi, ↓reduceIte, kernelPde, kernelTable, entries, count, eq]
    simp [Pte.state, kernelPte]
  · have hi : ¬ page / 1024 < 4 := by omega
    simp only [h, hi, ↓reduceIte]

theorem Spaces.Wf.construct {vm : VmState} (wf : vm.abs.Wf) : (constructPageDir vm).2.abs.Wf := by
  rcases constructPageDir_spec vm with ⟨-, h⟩ | ⟨-, h⟩
  · rw [h]; exact wf
  rw [h]
  have maps : ∀ d page f, { vm.abs with
      space := Function.update vm.abs.space vm.nextDir (some (stateOf freshDir))
      next := vm.nextDir + 1 : Spaces }.Maps d page f → vm.abs.Maps d page f := by
    rintro d page f ⟨hp, space, hs, hf⟩
    by_cases hd : d = vm.nextDir
    · simp only [hd, Function.update_self, Option.some.injEq] at hs
      have : ¬ page < kernelPageCount := Nat.not_lt.mpr hp.1
      simp [← hs, stateOf_freshDir, this, PageState.frame?] at hf
    · simp only [Function.update_of_ne hd] at hs
      exact ⟨hp, space, hs, hf⟩
  refine ⟨wf.sorted, wf.pool, fun d page f h => wf.user d page f (maps d page f h),
    fun d page f h => wf.unmapped d page f (maps d page f h),
    fun d₁ d₂ page₁ page₂ f h₁ h₂ => wf.injective _ _ _ _ f (maps _ _ f h₁) (maps _ _ f h₂), ?_, ?_⟩
  · intro d space page hs hp
    by_cases hd : d = vm.nextDir
    · simp only [hd, Function.update_self, Option.some.injEq] at hs
      simp [← hs, stateOf_freshDir, hp]
    · simp only [Function.update_of_ne hd] at hs
      exact wf.kernel d space page hs hp
  · intro d (hd : vm.nextDir + 1 ≤ d)
    have ne : d ≠ vm.nextDir := by omega
    simp only [Function.update_of_ne ne]
    exact wf.fresh d (Nat.le_of_succ_le hd)

theorem frame?_newFramePte {frame : Nat} (aligned : pageSize ∣ frame) :
    (PageState.mapped (newFramePte frame)).frame? = some frame := by
  simp [PageState.frame?, newFramePte, Nat.div_mul_cancel aligned]

theorem frame?_zeroFramePte : (PageState.mapped zeroFramePte).frame? = some zeroFrame := rfl

theorem Spaces.Wf.mapNewFrame {vm : VmState} (wf : vm.abs.Wf) (d vAddr : Nat) :
    (mapNewFrame vm d vAddr).2.abs.Wf := by
  rcases mapNewFrame_spec vm d vAddr with ⟨-, h⟩ | ⟨space, frame, rest, avail, -, hd, hp, -,
    free, h⟩
  · rw [h]; exact wf
  rw [h]
  obtain ⟨aligned, user, nz⟩ := wf.pool frame (free ▸ List.mem_cons_self)
  have gone : frame ∉ rest := by
    have sorted := wf.sorted
    rw [free, List.pairwise_cons] at sorted
    exact fun hf => absurd (sorted.1 frame hf) (lt_irrefl frame)
  refine (wf.tail free).setPage hd hp ?_ ?_ <;> rw [frame?_newFramePte aligned]
  · rintro f ⟨⟩; exact user
  · rintro f ⟨⟩ -
    refine ⟨gone, fun e q hm => absurd (free ▸ List.mem_cons_self) (wf.unmapped e q frame hm nz)⟩

theorem Spaces.Wf.mapZeroFrame {vm : VmState} (wf : vm.abs.Wf) (d vAddr : Nat) :
    (mapZeroFrame vm d vAddr).2.abs.Wf := by
  rcases mapZeroFrame_spec vm d vAddr with ⟨-, h⟩ | ⟨space, avail, -, hd, hp, -, h⟩
  · rw [h]; exact wf
  rw [h]
  refine wf.setPage hd hp ?_ ?_ <;> rw [frame?_zeroFramePte]
  · rintro f ⟨⟩; exact le_refl _
  · rintro f ⟨⟩ nz; exact absurd rfl nz

theorem Spaces.Wf.unmapFrame {vm : VmState} (wf : vm.abs.Wf) (d vAddr : Nat) :
    (unmapFrame vm d vAddr).2.abs.Wf := by
  rcases unmapFrame_spec vm d vAddr with ⟨-, h⟩ | ⟨space, pte, vm', -, hd, hp, state, abs, h⟩
  · rw [h]; exact wf
  rw [h]
  have wf' : vm'.abs.Wf := by
    rw [abs]
    exact wf.setPage hd hp (by simp [PageState.frame?]) (by simp [PageState.frame?])
  refine wf'.freeFrame fun nz e q hm => ?_
  rw [abs] at hm
  rcases maps_setPage hd hm with ⟨-, -, -, hf⟩ | ⟨other, hm⟩
  · simp [PageState.frame?] at hf
  · exact other (wf.injective e d q _ _ hm ⟨hp, space, hd, by simp [state, PageState.frame?]⟩ nz)

theorem Spaces.Wf.setAccess {vm : VmState} (wf : vm.abs.Wf) (d vAddr access : Nat) :
    (setAccess vm d vAddr access).2.abs.Wf := by
  rcases setAccess_spec vm d vAddr access with ⟨-, h⟩ | ⟨space, pte, rw, -, hd, hp, state, -, h⟩
  · rw [h]; exact wf
  rw [h]
  have maps : vm.abs.Maps d (pageOf vAddr) (pte.pageAddr * pageSize) :=
    ⟨hp, space, hd, by simp [state, PageState.frame?]⟩
  refine wf.setPage hd hp ?_ ?_ <;> simp only [PageState.frame?]
  · rintro f ⟨⟩; exact wf.user _ _ _ maps
  · rintro f ⟨⟩ nz
    exact ⟨wf.unmapped _ _ _ maps nz, fun e q hm => wf.injective _ _ _ _ _ hm maps nz⟩

theorem Spaces.Wf.setAvailability {vm : VmState} (wf : vm.abs.Wf) (d vAddr availability : Nat) :
    (setAvailability vm d vAddr availability).2.abs.Wf := by
  rcases setAvailability_spec vm d vAddr availability with ⟨-, h⟩ |
    ⟨space, old, avail, -, hd, hp, -, -, h⟩
  · rw [h]; exact wf
  · rw [h]
    exact wf.setPage hd hp (by simp [PageState.frame?]) (by simp [PageState.frame?])

/-! ### Destruction -/

/-- The abstract state without one space. -/
def Spaces.drop (s : Spaces) (d : Nat) : Spaces :=
  { s with space := Function.update s.space d none }

theorem maps_drop {s : Spaces} {d e page f : Nat} (h : (s.drop d).Maps e page f) :
    e ≠ d ∧ s.Maps e page f := by
  obtain ⟨hp, space, hs, hf⟩ := h
  have ne : e ≠ d := by
    rintro rfl
    simp [Spaces.drop] at hs
  simp only [Spaces.drop, Function.update_of_ne ne] at hs
  exact ⟨ne, hp, space, hs, hf⟩

theorem Spaces.Wf.drop {s : Spaces} (wf : s.Wf) (d : Nat) : (s.drop d).Wf where
  sorted := wf.sorted
  pool := wf.pool
  user e page f h := wf.user e page f (maps_drop h).2
  unmapped e page f h := wf.unmapped e page f (maps_drop h).2
  injective e₁ e₂ page₁ page₂ f h₁ h₂ :=
    wf.injective e₁ e₂ page₁ page₂ f (maps_drop h₁).2 (maps_drop h₂).2
  kernel e space page hs hp := by
    by_cases h : e = d
    · subst h; simp [Spaces.drop] at hs
    · simp only [Spaces.drop, Function.update_of_ne h] at hs
      exact wf.kernel e space page hs hp
  fresh e he := by
    by_cases h : e = d
    · subst h; simp [Spaces.drop]
    · simp only [Spaces.drop, Function.update_of_ne h]
      exact wf.fresh e he

theorem setDirs_abs_drop (vm : VmState) (d : Nat) :
    { vm with dirs := Function.update vm.dirs d none }.abs = vm.abs.drop d := by
  simp only [VmState.abs, Spaces.drop, Spaces.mk.injEq, true_and, and_true]
  funext e
  by_cases h : e = d
  · subst h; simp
  · simp [Function.update_of_ne h]

/-- What holds while directory `d`, with contents `pd`, is being destructed: the
invariant of all the others, and none of them maps a frame of `pd`. -/
structure Destructing (d : Nat) (pd : PageDir) (vm : VmState) : Prop where
  others : (vm.abs.drop d).Wf
  alone : ∀ page f, UserPage page → frameOf pd page = some f → f ≠ zeroFrame →
    ∀ e q, ¬ (vm.abs.drop d).Maps e q f

theorem Destructing.of_freeFrame {d : Nat} {pd : PageDir} {vm : VmState}
    (h : Destructing d pd vm) {page n : Nat} (hp : UserPage page)
    (hf : frameOf pd page = some (n * pageSize)) :
    Destructing d pd (freeFrame vm (n * pageSize)).2 := by
  have spec := freeFrame_spec vm (n * pageSize)
  rw [frame_aligned] at spec
  refine ⟨?_, ?_⟩
  · rcases spec with eq | ⟨user, nz, free, inserted, eq⟩
    · rw [eq]; exact h.others
    · rw [eq]
      exact h.others.insert inserted (Nat.dvd_mul_left _ _) user nz (h.alone page _ hp hf nz)
  · intro q f hq hqf nz e q' hm
    refine h.alone q f hq hqf nz e q' ?_
    rwa [Spaces.Maps, Spaces.drop, freeFrame_space] at hm

theorem userPage_of_table {i j : Nat} (hi : i < pdeCount) (hj : j < pteCount)
    (hk : kernelPageCount ≤ i * pteCount + j) : UserPage (i * pteCount + j) := by
  refine ⟨hk, ?_⟩
  simp only [pdeCount, pteCount, virtualAddrEnd, pageSize] at *
  omega

theorem Destructing.of_freeTable {d i : Nat} {pd : PageDir} {rw : Access} {us g : Bool}
    {pt : PageTable} (hi : i < pdeCount) (hpd : pd i = .present rw us g pt) :
    ∀ (js : List Nat) (vm : VmState), (∀ j ∈ js, j < pteCount) → Destructing d pd vm →
      Destructing d pd (freeTable i pt js vm)
  | [], _, _, h => h
  | j :: js, vm, hj, h => by
      unfold freeTable
      have bound : j < pteCount := hj j List.mem_cons_self
      have rest : ∀ k ∈ js, k < pteCount := fun k hk => hj k (List.mem_cons_of_mem j hk)
      split
      · rename_i mapped
        have div : (i * pteCount + j) / pteCount = i := by
          rw [Nat.mul_comm, Nat.mul_add_div (by decide), Nat.div_eq_of_lt bound, Nat.add_zero]
        have mod : (i * pteCount + j) % pteCount = j := by
          rw [Nat.mul_comm, Nat.mul_add_mod, Nat.mod_eq_of_lt bound]
        have frame : frameOf pd (i * pteCount + j) = some ((pt j).pageAddr * pageSize) := by
          simp [frameOf, stateOf, div, mod, hpd, Pte.state, mapped.1, PageState.frame?]
        exact Destructing.of_freeTable hi hpd js _ rest
          (h.of_freeFrame (userPage_of_table hi bound mapped.2) frame)
      · exact Destructing.of_freeTable hi hpd js vm rest h

theorem Destructing.of_freeTables {d : Nat} {pd : PageDir} :
    ∀ (is : List Nat) (vm : VmState), (∀ i ∈ is, i < pdeCount) → Destructing d pd vm →
      Destructing d pd (freeTables pd is vm)
  | [], _, _, h => h
  | i :: is, vm, hi, h => by
      unfold freeTables
      have rest : ∀ k ∈ is, k < pdeCount := fun k hk => hi k (List.mem_cons_of_mem i hk)
      cases hpd : pd i with
      | absent avail => exact Destructing.of_freeTables is vm rest h
      | present rw us g pt =>
          exact Destructing.of_freeTables is _ rest
            (Destructing.of_freeTable (hi i List.mem_cons_self) hpd _ vm
              (fun j hj => List.mem_range.mp hj) h)

theorem Spaces.Wf.destruct {vm : VmState} (wf : vm.abs.Wf) (d : Nat) :
    (destructPageDir vm d).abs.Wf := by
  unfold destructPageDir
  cases hd : vm.dirs d with
  | none => exact wf
  | some pd =>
      have start : Destructing d pd vm := by
        refine ⟨wf.drop d, fun page f hp hf nz e q hm => ?_⟩
        obtain ⟨ne, hm⟩ := maps_drop hm
        exact ne (wf.injective e d q page f hm ⟨hp, stateOf pd, abs_space_some hd, hf⟩ nz).1
      have done := Destructing.of_freeTables (List.range pdeCount) vm
        (fun i hi => List.mem_range.mp hi) start
      dsimp only
      rw [setDirs_abs_drop]
      exact done.others

/-! ### Boot -/

/-- The frames of the loop of `init_allocator`, without the zero frame. -/
def poolFrames (is : List Nat) : List Nat :=
  (is.map fun i => (userPageStart + i * pageSize) % virtualAddrEnd).filter (· ≠ zeroFrame)

theorem initLoop_spec : ∀ (is : List Nat) (vm : VmState), (initLoop is vm).1 = true →
    (initLoop is vm).2.abs = { vm.abs with free := vm.allocList ++ poolFrames is }
  | [], vm, _ => by simp [initLoop, poolFrames, VmState.abs]
  | i :: is, vm, ok => by
      unfold initLoop at ok ⊢
      by_cases zero : (userPageStart + i * pageSize) % virtualAddrEnd = zeroFrame
      · simp only [zero, ↓reduceIte] at ok ⊢
        rw [initLoop_spec is vm ok]
        simp [poolFrames, zero]
      · cases hm : vm.oracle 0 <;> simp only [zero, ↓reduceIte, VmState.malloc, hm] at ok ⊢
        · cases ok
        · rw [initLoop_spec is _ ok]
          simp [poolFrames, zero, VmState.abs]

theorem poolFrames_range_sorted {n : Nat} (fits : n + userPageStart / pageSize ≤ 1048576) :
    (poolFrames (List.range n)).Pairwise (· < ·) := by
  refine List.Pairwise.filter _ (List.pairwise_map.mpr ?_)
  refine List.Pairwise.imp_of_mem ?_ List.pairwise_lt_range
  intro i j hi hj lt
  rw [List.mem_range] at hi hj
  simp only [userPageStart, userMemStart, pageSize, virtualAddrEnd] at *
  omega

theorem mem_poolFrames_range {n f : Nat} (fits : n + userPageStart / pageSize ≤ 1048576)
    (h : f ∈ poolFrames (List.range n)) :
    pageSize ∣ f ∧ userPageStart ≤ f ∧ f ≠ zeroFrame := by
  obtain ⟨mapped, nz⟩ := List.mem_filter.mp h
  obtain ⟨i, hi, rfl⟩ := List.mem_map.mp mapped
  rw [List.mem_range] at hi
  refine ⟨?_, ?_, by simpa using nz⟩ <;>
    simp only [userPageStart, userMemStart, pageSize, virtualAddrEnd] at * <;> omega

/-- The state after boot: the whole pool is free and there is no directory. -/
theorem wf_pool {n : Nat} (fits : n + userPageStart / pageSize ≤ 1048576) :
    (⟨poolFrames (List.range n), fun _ => none, 0⟩ : Spaces).Wf := by
  have nobody : ∀ d page f,
      ¬ (⟨poolFrames (List.range n), fun _ => none, 0⟩ : Spaces).Maps d page f := by
    rintro d page f ⟨-, space, hs, -⟩
    cases hs
  exact {
    sorted := poolFrames_range_sorted fits
    pool := fun f hf => mem_poolFrames_range fits hf
    user := fun d page f h => absurd h (nobody d page f)
    unmapped := fun d page f h => absurd h (nobody d page f)
    injective := fun d _ page _ f h => absurd h (nobody d page f)
    kernel := fun d space page hs => by cases hs
    fresh := fun d _ => rfl }

/-- After `init_page_dir_manager` there is a pool and no directory. -/
theorem abs_boot {physFrames : Nat} (fits : physFrames ≤ virtualAddrEnd / pageSize)
    {oracle : Nat → Bool} (ok : (initPageDirManager physFrames (.boot oracle)).1 = true) :
    ∃ n, n + userPageStart / pageSize ≤ 1048576 ∧
      (initPageDirManager physFrames (.boot oracle)).2.abs =
        ⟨poolFrames (List.range n), fun _ => none, 0⟩ := by
  unfold initPageDirManager initAllocator at *
  by_cases few : physFrames ≤ userPageStart / pageSize
  · rw [if_pos few] at ok; cases ok
  rw [if_neg few] at ok ⊢
  refine ⟨physFrames - userPageStart / pageSize, ?_, ?_⟩
  · rw [Nat.sub_add_cancel (Nat.le_of_not_le few)]
    simpa [virtualAddrEnd, pageSize] using fits
  · rw [initLoop_spec _ _ ok, show (VmState.boot oracle).allocList = [] from rfl, List.nil_append]
    generalize poolFrames _ = pool
    rfl

/-- A successful `init_page_dir_manager` establishes the invariant. -/
theorem wf_boot {physFrames : Nat} (fits : physFrames ≤ virtualAddrEnd / pageSize)
    {oracle : Nat → Bool} (ok : (initPageDirManager physFrames (.boot oracle)).1 = true) :
    (initPageDirManager physFrames (.boot oracle)).2.abs.Wf := by
  obtain ⟨n, fits', abs⟩ := abs_boot fits ok
  rw [abs]
  exact wf_pool fits'

/-! ### Runs -/

/-- The operations of the page directory manager. -/
inductive VmOp where
  | constructPageDir
  | mapNewFrame (d vAddr : Nat)
  | mapZeroFrame (d vAddr : Nat)
  | unmapFrame (d vAddr : Nat)
  | setAccess (d vAddr access : Nat)
  | setAvailability (d vAddr availability : Nat)
  | destructPageDir (d : Nat)

def VmOp.apply (vm : VmState) : VmOp → VmState
  | .constructPageDir => (Vm.constructPageDir vm).2
  | .mapNewFrame d vAddr => (Vm.mapNewFrame vm d vAddr).2
  | .mapZeroFrame d vAddr => (Vm.mapZeroFrame vm d vAddr).2
  | .unmapFrame d vAddr => (Vm.unmapFrame vm d vAddr).2
  | .setAccess d vAddr access => (Vm.setAccess vm d vAddr access).2
  | .setAvailability d vAddr availability => (Vm.setAvailability vm d vAddr availability).2
  | .destructPageDir d => Vm.destructPageDir vm d

theorem Spaces.Wf.apply {vm : VmState} (wf : vm.abs.Wf) (op : VmOp) : (op.apply vm).abs.Wf := by
  cases op with
  | constructPageDir => exact wf.construct
  | mapNewFrame d vAddr => exact wf.mapNewFrame d vAddr
  | mapZeroFrame d vAddr => exact wf.mapZeroFrame d vAddr
  | unmapFrame d vAddr => exact wf.unmapFrame d vAddr
  | setAccess d vAddr access => exact wf.setAccess d vAddr access
  | setAvailability d vAddr availability => exact wf.setAvailability d vAddr availability
  | destructPageDir d => exact wf.destruct d

/-- A place where a frame can occur: a node of the pool, or the PTE of a user
page of a live directory. -/
inductive Slot where
  | node (i : Nat)
  | pte (d page : Nat)

def VmState.Holds (vm : VmState) : Slot → Nat → Prop
  | .node i, f => vm.allocList[i]? = some f
  | .pte d page, f => UserPage page ∧ ∃ pd, vm.dirs d = some pd ∧ frameOf pd page = some f

/-- The invariant read on the state of the module. -/
structure FrameInv (vm : VmState) : Prop where
  exclusive : ∀ s₁ s₂ f, f ≠ zeroFrame → vm.Holds s₁ f → vm.Holds s₂ f → s₁ = s₂
  sorted : vm.allocList.Pairwise (· < ·)
  pool : ∀ f ∈ vm.allocList, pageSize ∣ f ∧ userPageStart ≤ f ∧ f ≠ zeroFrame
  user : ∀ d page f, vm.Holds (.pte d page) f → userPageStart ≤ f
  kernel : ∀ d pd page, vm.dirs d = some pd → page < kernelPageCount →
    stateOf pd page = .mapped (kernelPte page)

theorem maps_of_holds {vm : VmState} {d page f : Nat} (h : vm.Holds (.pte d page) f) :
    vm.abs.Maps d page f := by
  obtain ⟨hp, pd, hd, hf⟩ := h
  exact ⟨hp, stateOf pd, abs_space_some hd, hf⟩

theorem Spaces.Wf.frameInv {vm : VmState} (wf : vm.abs.Wf) : FrameInv vm where
  exclusive s₁ s₂ f nz h₁ h₂ := by
    have nodup : vm.allocList.Nodup := List.Pairwise.imp (fun lt => Nat.ne_of_lt lt) wf.sorted
    have notFree : ∀ i d page, vm.Holds (.node i) f → ¬ vm.Holds (.pte d page) f :=
      fun i d page hi hp => wf.unmapped d page f (maps_of_holds hp) nz (List.mem_of_getElem? hi)
    cases s₁ with
    | node i =>
        cases s₂ with
        | node j =>
            obtain ⟨hi, -⟩ := List.getElem?_eq_some_iff.mp h₁
            exact congrArg Slot.node ((List.getElem?_inj hi nodup).mp (h₁.trans h₂.symm))
        | pte d page => exact absurd h₂ (notFree i d page h₁)
    | pte d page =>
        cases s₂ with
        | node j => exact absurd h₁ (notFree j d page h₂)
        | pte e q =>
            obtain ⟨rfl, rfl⟩ := wf.injective _ _ _ _ f (maps_of_holds h₁) (maps_of_holds h₂) nz
            rfl
  sorted := wf.sorted
  pool := wf.pool
  user d page f h := wf.user d page f (maps_of_holds h)
  kernel d pd page hd hp := wf.kernel d (stateOf pd) page (abs_space_some hd) hp

/-- Frames are exclusive in every state that the page directory manager reaches:
each frame but the zero frame is in the pool or mapped by one user page, and at
most once; the pool is ascending and holds user frames only; user pages map user
frames; and the kernel half of every directory is as it was built. The number of
frames is that of a machine with 32-bit physical addresses. -/
theorem frames_exclusive {physFrames : Nat} (fits : physFrames ≤ virtualAddrEnd / pageSize)
    {oracle : Nat → Bool} (ok : (initPageDirManager physFrames (.boot oracle)).1 = true)
    (ops : List VmOp) :
    FrameInv (Run.run VmOp.apply (initPageDirManager physFrames (.boot oracle)).2 ops) :=
  (Run.run_invariant (P := fun vm : VmState => vm.abs.Wf) (fun _ op wf => wf.apply op)
    (wf_boot fits ok) ops).frameInv

/-- A machine with two frames to give, a directory that takes one, reads a page
and gives the frame back while allocation fails. -/
theorem frames_exclusive_two_frames :
    (initPageDirManager 4099 (.boot fun n => n ≠ 8)).1 = true ∧
      FrameInv (Run.run VmOp.apply (initPageDirManager 4099 (.boot fun n => n ≠ 8)).2
        [.constructPageDir, .mapNewFrame 0 userMemStart, .mapZeroFrame 0 (userMemStart + 4096),
          .unmapFrame 0 userMemStart]) :=
  ⟨rfl, frames_exclusive (by decide) rfl _⟩

end OsKernel.Vm
