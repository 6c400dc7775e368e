/-
The page directory manager where memory does not run out.

Each operation on a user page can fail because the page is not in the right state, and for
lack of memory. `Supplied n` rules the second out: the kernel heap has a block for every
call, and `n` frames are left in the pool, so that an operation succeeds as soon as the
page lets it.
-/

import OsKernel.Vm.Exclusive

namespace OsKernel.Vm

/-- The kernel heap never fails, and `n` frames are free. -/
structure VmState.Supplied (n : Nat) (vm : VmState) : Prop where
  heap : ∀ k, vm.oracle k = true
  pool : n ≤ vm.allocList.length

section
variable {n d v : Nat} {vm vm' : VmState} {pd : PageDir}

theorem VmState.Supplied.mono (h : vm.Supplied n) {k : Nat} (le : k ≤ n) : vm.Supplied k :=
  ⟨h.heap, Nat.le_trans le h.pool⟩

theorem VmState.Supplied.setDir (h : vm.Supplied n) (d : Nat) (pd : PageDir) :
    (vm.setDir d pd).Supplied n := ⟨h.heap, h.pool⟩

theorem VmState.Supplied.malloc (h : vm.Supplied n) :
    ∃ vm', vm.malloc = (true, vm') ∧ vm'.Supplied n ∧ vm'.abs = vm.abs :=
  ⟨vm.malloc.2, Prod.ext (h.heap 0) rfl, ⟨fun k => h.heap (k + 1), h.pool⟩, rfl⟩

/-- Up to the last step of `map_new_frame` and `map_zero_frame`. -/
theorem VmState.Supplied.mapPage (h : vm.Supplied n) (dir : vm.dirs d = some pd)
    (user : UserPage (pageOf v)) {avail : Availability}
    (unmapped : stateOf pd (pageOf v) = .unmapped avail) :
    ∃ vm' pd', vm'.Supplied n ∧ ∀ finish, mapPage vm d v finish = finish vm' pd' := by
  have high : ¬ pageOf v * pageSize < userPageStart := fun low => not_userPage.mp low user
  rcases findFrame_cases pd v with ⟨_, found, -⟩ | ⟨pte, found, -⟩ | ⟨pte, -, -, -, state⟩
  · obtain ⟨vm', malloc, supplied, -⟩ := h.malloc
    refine ⟨vm', createTable pd v, supplied, fun finish => ?_⟩
    simp only [Vm.mapPage, dir, if_neg high, found, malloc]
  · refine ⟨vm, pd, h, fun finish => ?_⟩
    simp only [Vm.mapPage, dir, if_neg high, found]
  · rw [state] at unmapped
    cases unmapped

theorem VmState.Supplied.mapNewFrame (h : vm.Supplied (n + 1)) (dir : vm.dirs d = some pd)
    (user : UserPage (pageOf v)) {avail : Availability}
    (unmapped : stateOf pd (pageOf v) = .unmapped avail) :
    (mapNewFrame vm d v).1 = true ∧ (mapNewFrame vm d v).2.Supplied n := by
  obtain ⟨vm', pd', supplied, eq⟩ := h.mapPage dir user unmapped
  rw [Vm.mapNewFrame, eq]
  have pool := supplied.pool
  cases free : vm'.allocList with
  | nil =>
      rw [free] at pool
      cases pool
  | cons frame rest =>
      rw [free, List.length_cons] at pool
      have alloc : allocFrame vm' = (some frame, { vm' with allocList := rest }) := by
        rw [allocFrame, free]
      simp only [alloc]
      exact ⟨trivial, supplied.heap, Nat.le_of_succ_le_succ pool⟩

theorem VmState.Supplied.mapZeroFrame (h : vm.Supplied n) (dir : vm.dirs d = some pd)
    (user : UserPage (pageOf v)) {avail : Availability}
    (unmapped : stateOf pd (pageOf v) = .unmapped avail) :
    (mapZeroFrame vm d v).1 = true ∧ (mapZeroFrame vm d v).2.Supplied n := by
  obtain ⟨vm', pd', supplied, eq⟩ := h.mapPage dir user unmapped
  rw [Vm.mapZeroFrame, eq]
  exact ⟨rfl, supplied.setDir d _⟩

theorem VmState.Supplied.setAvailability (h : vm.Supplied n) (dir : vm.dirs d = some pd)
    (user : UserPage (pageOf v)) {old : Availability}
    (unmapped : stateOf pd (pageOf v) = .unmapped old) {bits : Nat} {avail : Availability}
    (known : Availability.ofNat? bits = some avail) :
    (setAvailability vm d v bits).1 = true ∧ (setAvailability vm d v bits).2.Supplied n := by
  have high : ¬ pageOf v * pageSize < userPageStart := fun low => not_userPage.mp low user
  rw [Vm.setAvailability, dir, known]
  dsimp only
  rw [if_neg high]
  rcases findFrame_cases pd v with ⟨was, found, -⟩ | ⟨pte, found, -⟩ | ⟨pte, -, -, -, state⟩
  · obtain ⟨vm', malloc, supplied, -⟩ := h.malloc
    rw [found]
    dsimp only
    by_cases same : was = avail
    · rw [if_pos same]
      exact ⟨rfl, h⟩
    · rw [if_neg same, malloc]
      exact ⟨rfl, supplied.setDir d _⟩
  · rw [found]
    exact ⟨rfl, h.setDir d _⟩
  · rw [state] at unmapped
    cases unmapped

theorem VmState.Supplied.mallocAll (h : vm.Supplied n) (k : Nat) :
    ∃ vm', mallocAll k vm = (true, vm') ∧ vm'.Supplied n := by
  induction k generalizing vm with
  | zero => exact ⟨vm, rfl, h⟩
  | succ k ih =>
      obtain ⟨vm', malloc, supplied, -⟩ := h.malloc
      rw [Vm.mallocAll, malloc]
      exact ih supplied

theorem VmState.Supplied.constructPageDir (h : vm.Supplied n) :
    ∃ d vm', constructPageDir vm = (some d, vm') ∧ vm'.Supplied n := by
  obtain ⟨vm', all, supplied⟩ := h.mallocAll (kernelPageTableCount + 1)
  rw [Vm.constructPageDir, all]
  exact ⟨_, _, rfl, supplied.heap, supplied.pool⟩

/-- The pool after boot: every frame of user memory but the zero frame. -/
theorem supplied_initLoop (is : List Nat) (h : vm.Supplied n) :
    ∃ vm', initLoop is vm = (true, vm') ∧
      vm'.Supplied (n + (poolFrames is).length) := by
  induction is generalizing vm n with
  | nil => exact ⟨vm, rfl, h⟩
  | cons i is ih =>
      unfold initLoop
      by_cases zero : (userPageStart + i * pageSize) % virtualAddrEnd = zeroFrame
      · have frames : poolFrames (i :: is) = poolFrames is := by
          rw [poolFrames, List.map_cons, List.filter_cons_of_neg (by simpa using zero), ← poolFrames]
        rw [if_pos zero, frames]
        exact ih h
      · have frames : (poolFrames (i :: is)).length = (poolFrames is).length + 1 := by
          rw [poolFrames, List.map_cons, List.filter_cons_of_pos (by simpa using zero),
            List.length_cons, ← poolFrames]
        obtain ⟨vm₁, malloc, supplied, -⟩ := h.malloc
        have pushed : VmState.Supplied (n + 1) { vm₁ with allocList := vm₁.allocList ++
            [(userPageStart + i * pageSize) % virtualAddrEnd] } := by
          refine ⟨supplied.heap, ?_⟩
          have pool := supplied.pool
          rw [List.length_append, List.length_singleton]
          omega
        rw [if_neg zero, malloc, frames, Nat.add_comm _ 1, ← Nat.add_assoc]
        exact ih pushed

/-- All frames from that of the zero frame on are in the pool but this one. -/
theorem poolFrames_length {k : Nat} (fits : k + 1 + userPageStart / pageSize ≤ 1048576) :
    (poolFrames (List.range (k + 1))).length = k := by
  have others : ∀ f ∈ ((List.range k).map Nat.succ).map
      (fun i => (userPageStart + i * pageSize) % virtualAddrEnd), decide (f ≠ zeroFrame) = true := by
    intro f mem
    obtain ⟨i, hi, rfl⟩ := List.mem_map.mp mem
    obtain ⟨j, hj, rfl⟩ := List.mem_map.mp hi
    rw [List.mem_range] at hj
    rw [decide_eq_true_iff]
    simp only [zeroFrame, userPageStart, userMemStart, pageSize, virtualAddrEnd] at *
    omega
  rw [poolFrames, List.range_succ_eq_map, List.map_cons, List.filter_cons_of_neg (by decide),
    List.filter_eq_self.mpr others, List.length_map, List.length_map, List.length_range]

theorem supplied_boot {k : Nat} (fits : k + 1 + userPageStart / pageSize ≤ 1048576)
    {oracle : Nat → Bool} (heap : ∀ i, oracle i = true) :
    ∃ vm, initPageDirManager (k + 1 + userPageStart / pageSize) (.boot oracle) = (true, vm) ∧
      vm.Supplied k := by
  obtain ⟨vm, ran, supplied⟩ := supplied_initLoop (List.range (k + 1))
    (⟨heap, Nat.zero_le _⟩ : (VmState.boot oracle).Supplied 0)
  rw [poolFrames_length fits, Nat.zero_add] at supplied
  refine ⟨vm, ?_, supplied⟩
  rw [initPageDirManager, initAllocator, if_neg (by omega), Nat.add_sub_cancel]
  exact ran

end

end OsKernel.Vm
