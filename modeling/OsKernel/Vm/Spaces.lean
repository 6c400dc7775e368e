/-
What each function of the page directory manager does, read page by page.

`Spaces` is the abstract state: the pool of free frames and, for every live
directory, the state of each of its pages. It forgets the page tables, which are
created on demand and never change the state of a page. One lemma per function
says what it does to this state and when (`mapNewFrame_spec`,
`unmapFrame_spec`, ...); the invariants above are proved from these lemmas and
never open the functions again.
-/

import OsKernel.Vm.Manager

namespace OsKernel.Vm

structure Spaces where
  free : List Nat
  space : Nat → Option (Nat → PageState)
  next : Nat

/-- The abstract state behind the module's state. -/
def VmState.abs (vm : VmState) : Spaces :=
  ⟨vm.allocList, fun d => (vm.dirs d).map stateOf, vm.nextDir⟩

/-- Put one page of a space into a new state. -/
def Spaces.setPage (s : Spaces) (d : Nat) (space : Nat → PageState) (page : Nat)
    (state : PageState) : Spaces :=
  { s with space := Function.update s.space d (some (Function.update space page state)) }

@[simp] theorem malloc_abs (vm : VmState) : vm.malloc.2.abs = vm.abs := rfl

@[simp] theorem malloc_dirs (vm : VmState) : vm.malloc.2.dirs = vm.dirs := rfl

@[simp] theorem malloc_allocList (vm : VmState) : vm.malloc.2.allocList = vm.allocList := rfl

theorem abs_space_some {vm : VmState} {d : Nat} {pd : PageDir} (h : vm.dirs d = some pd) :
    vm.abs.space d = some (stateOf pd) := by
  simp [VmState.abs, h]

theorem abs_space_none {vm : VmState} {d : Nat} (h : vm.dirs d = none) :
    vm.abs.space d = none := by
  simp [VmState.abs, h]

theorem setDir_abs (vm : VmState) (d : Nat) (pd : PageDir) :
    (vm.setDir d pd).abs =
      { vm.abs with space := Function.update vm.abs.space d (some (stateOf pd)) } := by
  simp only [VmState.abs, VmState.setDir, Spaces.mk.injEq, true_and, and_true]
  funext e
  by_cases h : e = d
  · subst h; simp
  · simp [Function.update_of_ne h]

/-- A directory replaced by one with the same pages is no change. -/
theorem setDir_abs_same {vm : VmState} {d : Nat} {pd pd' : PageDir} (h : vm.dirs d = some pd)
    (same : stateOf pd' = stateOf pd) : (vm.setDir d pd').abs = vm.abs := by
  rw [setDir_abs, same, ← abs_space_some h, Function.update_eq_self]

/-- Writing a PTE puts its page into the state of the PTE. -/
theorem setDir_writePte_abs (vm : VmState) (d vAddr : Nat) {pd pd' : PageDir} (pte : Pte)
    (table : HasTable pd' vAddr) (same : stateOf pd' = stateOf pd) :
    (vm.setDir d (writePte pd' vAddr pte)).abs =
      vm.abs.setPage d (stateOf pd) (pageOf vAddr) pte.state := by
  rw [setDir_abs, stateOf_writePte table, same]
  rfl

theorem not_userPage {vAddr : Nat} :
    pageOf vAddr * pageSize < userPageStart ↔ ¬ UserPage (pageOf vAddr) := by
  rw [userPage_pageOf]; omega

/-! ### The pool -/

theorem findNode_spec (frame : Nat) (passed : List Nat) (node : Nat) (rest : List Nat)
    (below : node ≤ frame) :
    let out := findNode frame passed node rest
    passed ++ node :: rest = out.1 ++ out.2.1 :: out.2.2 ∧ out.2.1 ≤ frame ∧
      ∀ x ∈ out.2.2.head?, frame < x := by
  induction rest generalizing passed node with
  | nil => simp [findNode, below]
  | cons next rest ih =>
      unfold findNode
      by_cases h : next ≤ frame
      · simpa [h] using ih (passed ++ [node]) next h
      · simp [h, below]; omega

/-- A frame goes into the pool between the smaller and the larger ones. -/
def InsertedAt (frame : Nat) (old new : List Nat) : Prop :=
  ∃ before after, old = before ++ after ∧ new = before ++ frame :: after ∧
    (old.Pairwise (· < ·) → (∀ x ∈ before, x < frame) ∧ ∀ x ∈ after, frame < x)

theorem insertedAt_front {frame : Nat} {old : List Nat} (below : ∀ x ∈ old.head?, frame < x) :
    InsertedAt frame old (frame :: old) := by
  refine ⟨[], old, rfl, rfl, fun sorted => ⟨by simp, ?_⟩⟩
  cases old with
  | nil => simp
  | cons x xs =>
      have hx : frame < x := below x (by simp)
      intro y hy
      rcases List.mem_cons.mp hy with rfl | hy
      · exact hx
      · exact Nat.lt_trans hx ((List.pairwise_cons.mp sorted).1 y hy)

theorem insertedAt_after {frame node : Nat} {before after : List Nat} (below : node < frame)
    (above : ∀ x ∈ after.head?, frame < x) :
    InsertedAt frame (before ++ node :: after) (before ++ node :: frame :: after) := by
  refine ⟨before ++ [node], after, by simp, by simp, fun sorted => ⟨?_, ?_⟩⟩
  · intro x hx
    rcases List.mem_append.mp hx with hx | hx
    · have := (List.pairwise_append.mp sorted).2.2 x hx node (by simp)
      omega
    · simp only [List.mem_singleton] at hx
      omega
  · have tail := (List.pairwise_cons.mp (List.pairwise_append.mp sorted).2.1).2
    cases after with
    | nil => simp
    | cons y ys =>
        have hy : frame < y := above y (by simp)
        intro x hx
        rcases List.mem_cons.mp hx with rfl | hx
        · exact hy
        · exact Nat.lt_trans hy ((List.pairwise_cons.mp tail).1 x hx)

/-- What `free_frame` does: nothing for a frame that is not of the user or is in the
pool already; otherwise it asks for a node and, if it gets one, puts the frame at
its place. -/
theorem freeFrame_cases (vm : VmState) (pAddr : Nat) :
    (freeFrame vm pAddr = (true, vm) ∧ (userPageStart ≤ pAddr / pageSize * pageSize →
        pAddr / pageSize * pageSize ≠ zeroFrame → pAddr / pageSize * pageSize ∈ vm.allocList)) ∨
      (userPageStart ≤ pAddr / pageSize * pageSize ∧ pAddr / pageSize * pageSize ≠ zeroFrame ∧
        ((vm.oracle 0 = false ∧ freeFrame vm pAddr = (false, vm.malloc.2)) ∨
          ∃ free, vm.oracle 0 = true ∧ InsertedAt (pAddr / pageSize * pageSize) vm.allocList free ∧
            freeFrame vm pAddr = (true, { vm.malloc.2 with allocList := free }))) := by
  unfold freeFrame
  by_cases user : userPageStart ≤ pAddr / pageSize * pageSize ∧
      pAddr / pageSize * pageSize ≠ zeroFrame
  swap
  · rw [if_neg user]
    exact .inl ⟨rfl, fun ge nz => absurd ⟨ge, nz⟩ user⟩
  simp only [user, ne_eq, not_false_eq_true, and_self, ↓reduceIte]
  generalize pAddr / pageSize * pageSize = frame
  cases hl : vm.allocList with
  | nil =>
      refine .inr ⟨trivial, trivial, ?_⟩
      cases hm : vm.oracle 0 with
      | false => exact .inl ⟨rfl, by simp [VmState.malloc, hm]⟩
      | true => exact .inr ⟨[frame], rfl, insertedAt_front (by simp), by simp [VmState.malloc, hm]⟩
  | cons head rest =>
      by_cases hh : frame < head
      · simp only [hh, ↓reduceIte]
        refine .inr ⟨trivial, trivial, ?_⟩
        cases hm : vm.oracle 0 with
        | false => exact .inl ⟨rfl, by simp [VmState.malloc, hm]⟩
        | true =>
            exact .inr ⟨frame :: head :: rest, rfl, insertedAt_front (by simpa using hh),
              by simp [VmState.malloc, hm]⟩
      · obtain ⟨split, le, above⟩ := findNode_spec frame [] head rest (by omega)
        rw [List.nil_append] at split
        simp only [hh, ↓reduceIte]
        generalize findNode frame [] head rest = out at split le above ⊢
        by_cases there : out.2.1 = frame
        · refine .inl ⟨by simp [there], fun _ _ => ?_⟩
          rw [split, there]
          simp
        · simp only [there, ↓reduceIte]
          refine .inr ⟨trivial, trivial, ?_⟩
          cases hm : vm.oracle 0 with
          | false => exact .inl ⟨rfl, by simp [VmState.malloc, hm]⟩
          | true =>
              refine .inr ⟨_, rfl, ?_, by simp [VmState.malloc, hm]; rfl⟩
              rw [split]
              exact insertedAt_after (by omega) above

/-- `free_frame` touches only the pool. It either leaves it alone or puts the
frame at its place in it. -/
theorem freeFrame_spec (vm : VmState) (pAddr : Nat) :
    (freeFrame vm pAddr).2.abs = vm.abs ∨
      (userPageStart ≤ pAddr / pageSize * pageSize ∧ pAddr / pageSize * pageSize ≠ zeroFrame ∧
        ∃ free, InsertedAt (pAddr / pageSize * pageSize) vm.allocList free ∧
          (freeFrame vm pAddr).2.abs = { vm.abs with free := free }) := by
  rcases freeFrame_cases vm pAddr with ⟨eq, -⟩ | ⟨user, nz, ⟨-, eq⟩ | ⟨free, -, inserted, eq⟩⟩
  · rw [eq]
    exact .inl rfl
  · rw [eq]
    exact .inl rfl
  · rw [eq]
    exact .inr ⟨user, nz, free, inserted, rfl⟩

theorem freeFrame_space (vm : VmState) (pAddr : Nat) :
    (freeFrame vm pAddr).2.abs.space = vm.abs.space := by
  rcases freeFrame_spec vm pAddr with h | ⟨-, -, free, -, h⟩ <;> rw [h]

theorem freeFrame_next (vm : VmState) (pAddr : Nat) :
    (freeFrame vm pAddr).2.abs.next = vm.abs.next := by
  rcases freeFrame_spec vm pAddr with h | ⟨-, -, free, -, h⟩ <;> rw [h]

/-! ### Directories -/

theorem mallocAll_abs (n : Nat) (vm : VmState) : (mallocAll n vm).2.abs = vm.abs := by
  induction n generalizing vm with
  | zero => rfl
  | succ n ih =>
      unfold mallocAll
      cases hm : vm.oracle 0 <;> simp only [VmState.malloc, hm]
      · rfl
      · exact ih _

/-- `construct_page_dir` either changes nothing or adds the fresh directory. -/
theorem constructPageDir_spec (vm : VmState) :
    ((constructPageDir vm).1 = none ∧ (constructPageDir vm).2.abs = vm.abs) ∨
      ((constructPageDir vm).1 = some vm.nextDir ∧ (constructPageDir vm).2.abs =
        { vm.abs with
          space := Function.update vm.abs.space vm.nextDir (some (stateOf freshDir))
          next := vm.nextDir + 1 }) := by
  have same := mallocAll_abs (kernelPageTableCount + 1) vm
  unfold constructPageDir
  cases h : mallocAll (kernelPageTableCount + 1) vm with
  | mk ok vm' =>
      rw [h] at same
      have next : vm'.nextDir = vm.nextDir := congrArg Spaces.next same
      cases ok with
      | false => exact .inl ⟨rfl, same⟩
      | true =>
          refine .inr ⟨congrArg some next, ?_⟩
          have := setDir_abs vm' vm'.nextDir freshDir
          rw [same] at this
          rw [← next]
          exact congrArg (fun s : Spaces => { s with next := vm'.nextDir + 1 }) this

/-- `map_new_frame` and `map_zero_frame` fail without an effect, or reach their
last part with a page table for a page that is not mapped. -/
theorem mapPage_cases (vm : VmState) (d vAddr : Nat)
    (finish : VmState → PageDir → Bool × VmState) :
    ((mapPage vm d vAddr finish).1 = false ∧ (mapPage vm d vAddr finish).2.abs = vm.abs) ∨
      ∃ pd vm' pd' avail, vm.dirs d = some pd ∧ UserPage (pageOf vAddr) ∧
        stateOf pd (pageOf vAddr) = .unmapped avail ∧ vm'.abs = vm.abs ∧ vm'.dirs = vm.dirs ∧
        HasTable pd' vAddr ∧ stateOf pd' = stateOf pd ∧
        mapPage vm d vAddr finish = finish vm' pd' := by
  rcases h : mapPage vm d vAddr finish with ⟨ok, out⟩
  unfold mapPage at h
  cases hd : vm.dirs d with
  | none => rw [hd] at h; cases h; exact .inl ⟨rfl, rfl⟩
  | some pd =>
      simp only [hd] at h
      by_cases user : pageOf vAddr * pageSize < userPageStart
      · rw [if_pos user] at h; cases h; exact .inl ⟨rfl, rfl⟩
      rw [if_neg user] at h
      have page : UserPage (pageOf vAddr) := not_not.mp (mt not_userPage.mpr user)
      rcases findFrame_cases pd vAddr with ⟨avail, found, state⟩ |
        ⟨pte, found, -, table, state⟩ | ⟨pte, found, -⟩ <;> simp only [found] at h
      · cases hm : vm.oracle 0 <;> simp only [VmState.malloc, hm] at h
        · cases h; exact .inl ⟨rfl, rfl⟩
        · exact .inr ⟨pd, vm.malloc.2, createTable pd vAddr, avail, rfl, page, state, rfl, rfl,
            hasTable_createTable pd vAddr, stateOf_createTable pd vAddr, h.symm⟩
      · exact .inr ⟨pd, vm, pd, pte.available, rfl, page, state, rfl, rfl, table, rfl, h.symm⟩
      · cases h; exact .inl ⟨rfl, rfl⟩

/-- `map_new_frame` fails without an effect, or moves the head of the pool to a
page that was not mapped. -/
theorem mapNewFrame_spec (vm : VmState) (d vAddr : Nat) :
    ((mapNewFrame vm d vAddr).1 = false ∧ (mapNewFrame vm d vAddr).2.abs = vm.abs) ∨
      ∃ space frame rest avail, (mapNewFrame vm d vAddr).1 = true ∧
        vm.abs.space d = some space ∧ UserPage (pageOf vAddr) ∧
        space (pageOf vAddr) = .unmapped avail ∧ vm.abs.free = frame :: rest ∧
        (mapNewFrame vm d vAddr).2.abs =
          { vm.abs with free := rest }.setPage d space (pageOf vAddr)
            (.mapped (newFramePte frame)) := by
  unfold mapNewFrame
  rcases mapPage_cases vm d vAddr _ with h | ⟨pd, vm', pd', avail, hd, page, state, abs, dirs,
    table, same, eq⟩
  · exact .inl h
  rw [eq]
  have free : vm'.allocList = vm.abs.free := congrArg Spaces.free abs
  unfold allocFrame
  cases hl : vm'.allocList with
  | nil => exact .inl ⟨rfl, (setDir_abs_same (dirs ▸ hd) same).trans abs⟩
  | cons frame rest =>
      refine .inr ⟨stateOf pd, frame, rest, avail, rfl, abs_space_some hd, page, state,
        free.symm.trans hl, ?_⟩
      simp only [setDir_writePte_abs _ d vAddr (newFramePte frame) table same, ← abs]
      rfl

/-- `map_zero_frame` fails without an effect, or maps a page that was not mapped
to the zero frame. -/
theorem mapZeroFrame_spec (vm : VmState) (d vAddr : Nat) :
    ((mapZeroFrame vm d vAddr).1 = false ∧ (mapZeroFrame vm d vAddr).2.abs = vm.abs) ∨
      ∃ space avail, (mapZeroFrame vm d vAddr).1 = true ∧ vm.abs.space d = some space ∧
        UserPage (pageOf vAddr) ∧ space (pageOf vAddr) = .unmapped avail ∧
        (mapZeroFrame vm d vAddr).2.abs =
          vm.abs.setPage d space (pageOf vAddr) (.mapped zeroFramePte) := by
  unfold mapZeroFrame
  rcases mapPage_cases vm d vAddr _ with h | ⟨pd, vm', pd', avail, hd, page, state, abs, dirs,
    table, same, eq⟩
  · exact .inl h
  rw [eq]
  refine .inr ⟨stateOf pd, avail, rfl, abs_space_some hd, page, state, ?_⟩
  simp only [setDir_writePte_abs _ d vAddr zeroFramePte table same, ← abs]
  rfl

/-- `unmap_frame` fails without an effect, or leaves a mapped page available and
gives its frame to `free_frame`. -/
theorem unmapFrame_spec (vm : VmState) (d vAddr : Nat) :
    ((unmapFrame vm d vAddr).1 = false ∧ (unmapFrame vm d vAddr).2.abs = vm.abs) ∨
      ∃ space pte vm', (unmapFrame vm d vAddr).1 = true ∧ vm.abs.space d = some space ∧
        UserPage (pageOf vAddr) ∧ space (pageOf vAddr) = .mapped pte ∧
        vm'.abs = vm.abs.setPage d space (pageOf vAddr) (.unmapped .available) ∧
        (unmapFrame vm d vAddr).2 = (freeFrame vm' (pte.pageAddr * pageSize)).2 := by
  rcases h : unmapFrame vm d vAddr with ⟨ok, out⟩
  unfold unmapFrame at h
  cases hd : vm.dirs d with
  | none => rw [hd] at h; cases h; exact .inl ⟨rfl, rfl⟩
  | some pd =>
      simp only [hd] at h
      by_cases user : pageOf vAddr * pageSize < userPageStart
      · rw [if_pos user] at h; cases h; exact .inl ⟨rfl, rfl⟩
      rw [if_neg user] at h
      have page : UserPage (pageOf vAddr) := not_not.mp (mt not_userPage.mpr user)
      rcases findFrame_cases pd vAddr with ⟨avail, found, -⟩ | ⟨pte, found, -⟩ |
        ⟨pte, found, -, table, state⟩ <;> simp only [found] at h <;> cases h
      · exact .inl ⟨rfl, rfl⟩
      · exact .inl ⟨rfl, rfl⟩
      · exact .inr ⟨stateOf pd, pte, _, rfl, abs_space_some hd, page, state,
          setDir_writePte_abs vm d vAddr _ table rfl, rfl⟩

/-- `set_access` fails without an effect, or sets the read/write bit of a mapped
page. -/
theorem setAccess_spec (vm : VmState) (d vAddr access : Nat) :
    ((setAccess vm d vAddr access).1 = false ∧ (setAccess vm d vAddr access).2.abs = vm.abs) ∨
      ∃ space pte rw, (setAccess vm d vAddr access).1 = true ∧
        vm.abs.space d = some space ∧ UserPage (pageOf vAddr) ∧
        space (pageOf vAddr) = .mapped pte ∧ Access.ofNat? access = some rw ∧
        (setAccess vm d vAddr access).2.abs =
          vm.abs.setPage d space (pageOf vAddr) (.mapped { pte with rw := rw }) := by
  rcases h : setAccess vm d vAddr access with ⟨ok, out⟩
  unfold setAccess at h
  cases hd : vm.dirs d with
  | none => rw [hd] at h; cases h; exact .inl ⟨rfl, rfl⟩
  | some pd =>
      simp only [hd] at h
      by_cases user : pageOf vAddr * pageSize < userPageStart
      · rw [if_pos user] at h; cases h; exact .inl ⟨rfl, rfl⟩
      rw [if_neg user] at h
      have page : UserPage (pageOf vAddr) := not_not.mp (mt not_userPage.mpr user)
      rcases findFrame_cases pd vAddr with ⟨avail, found, -⟩ | ⟨pte, found, -⟩ |
        ⟨pte, found, present, table, state⟩ <;> simp only [found] at h
      · cases h; exact .inl ⟨rfl, rfl⟩
      · cases h; exact .inl ⟨rfl, rfl⟩
      cases ha : Access.ofNat? access with
      | none => rw [ha] at h; cases h; exact .inl ⟨rfl, rfl⟩
      | some rw =>
          simp only [ha] at h
          cases h
          refine .inr ⟨stateOf pd, pte, rw, rfl, abs_space_some hd, page, state, rfl, ?_⟩
          simp [setDir_writePte_abs vm d vAddr _ table rfl, Pte.state, present]

/-- `set_availability` fails without an effect, or sets the available bits of a
page that is not mapped. -/
theorem setAvailability_spec (vm : VmState) (d vAddr availability : Nat) :
    ((setAvailability vm d vAddr availability).1 = false ∧
        (setAvailability vm d vAddr availability).2.abs = vm.abs) ∨
      ∃ space old avail, (setAvailability vm d vAddr availability).1 = true ∧
        vm.abs.space d = some space ∧ UserPage (pageOf vAddr) ∧
        space (pageOf vAddr) = .unmapped old ∧ Availability.ofNat? availability = some avail ∧
        (setAvailability vm d vAddr availability).2.abs =
          vm.abs.setPage d space (pageOf vAddr) (.unmapped avail) := by
  rcases h : setAvailability vm d vAddr availability with ⟨ok, out⟩
  unfold setAvailability at h
  cases hd : vm.dirs d with
  | none => simp only [hd] at h; cases h; exact .inl ⟨rfl, rfl⟩
  | some pd =>
    cases ha : Availability.ofNat? availability with
    | none => simp only [hd, ha] at h; cases h; exact .inl ⟨rfl, rfl⟩
    | some avail =>
        simp only [hd, ha] at h
        by_cases user : pageOf vAddr * pageSize < userPageStart
        · rw [if_pos user] at h; cases h; exact .inl ⟨rfl, rfl⟩
        rw [if_neg user] at h
        have page : UserPage (pageOf vAddr) := not_not.mp (mt not_userPage.mpr user)
        rcases findFrame_cases pd vAddr with ⟨old, found, state⟩ |
          ⟨pte, found, absent, table, state⟩ | ⟨pte, found, -⟩ <;> simp only [found] at h
        · by_cases same : old = avail
          · subst same
            rw [if_pos rfl] at h; cases h
            refine .inr ⟨stateOf pd, old, old, rfl, abs_space_some hd, page, state, rfl, ?_⟩
            rw [Spaces.setPage, ← state, Function.update_eq_self, ← abs_space_some hd,
              Function.update_eq_self]
          · rw [if_neg same] at h
            cases hm : vm.oracle 0 <;> simp only [VmState.malloc, hm] at h <;> cases h
            · exact .inl ⟨rfl, rfl⟩
            · refine .inr ⟨stateOf pd, old, avail, rfl, abs_space_some hd, page, state, rfl, ?_⟩
              rw [setDir_writePte_abs _ d vAddr _ (hasTable_createTable pd vAddr)
                (stateOf_createTable pd vAddr)]
              rfl
        · cases h
          refine .inr ⟨stateOf pd, pte.available, avail, rfl, abs_space_some hd, page, state,
            rfl, ?_⟩
          simp [setDir_writePte_abs vm d vAddr _ table rfl, Pte.state, absent]
        · cases h; exact .inl ⟨rfl, rfl⟩

end OsKernel.Vm
