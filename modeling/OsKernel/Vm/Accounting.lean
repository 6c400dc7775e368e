/-
Where the frames are: the pool and one directory, over a whole sequence of
operations.

A call works in one directory. `Within d vm₀ vm` says that between `vm₀` and `vm`
no other directory has changed and that frames have only moved between the pool
and directory `d`. Every operation keeps it as long as `free_frame` gets a node
for its list (`UnmapFrees`, `DestructFrees`), so that a call which puts the pages
of `d` back has put the pool back (`Within.pool`), and one that gives a new
directory up has as well (`Within.destruct`).

The operations that a rollback relies on do not fail: `unmap_frame` of a page that
is mapped (`unmapFrame_mapped`) and `set_availability` of one that has a page table
(`setAvailability_tabled`).
-/

import OsKernel.Vm.Exclusive
import Mathlib.Data.List.Nodup

namespace OsKernel.Vm

/-! ### The pool -/

theorem mem_of_insertedAt {frame : Nat} {old new : List Nat} (h : InsertedAt frame old new)
    (f : Nat) : f ∈ new ↔ f ∈ old ∨ f = frame := by
  obtain ⟨before, after, rfl, rfl, -⟩ := h
  simp only [List.mem_append, List.mem_cons]
  tauto

@[simp] theorem freeFrame_dirs (vm : VmState) (pAddr : Nat) :
    (freeFrame vm pAddr).2.dirs = vm.dirs := by
  rcases freeFrame_cases vm pAddr with ⟨eq, -⟩ | ⟨-, -, ⟨-, eq⟩ | ⟨free, -, -, eq⟩⟩ <;>
    rw [eq] <;> rfl

/-- The frame of a call of `free_frame` that gets its node is in the pool after it. -/
theorem mem_freeFrame {vm : VmState} {n : Nat} (freed : (freeFrame vm (n * pageSize)).1 = true)
    (user : userPageStart ≤ n * pageSize) (f : Nat) :
    f ∈ (freeFrame vm (n * pageSize)).2.allocList ↔
      f ∈ vm.allocList ∨ f = n * pageSize ∧ f ≠ zeroFrame := by
  have cases := freeFrame_cases vm (n * pageSize)
  rw [frame_aligned] at cases
  rcases cases with ⟨eq, there⟩ | ⟨-, nz, ⟨-, eq⟩ | ⟨free, -, inserted, eq⟩⟩
  · rw [eq]
    constructor
    · exact .inl
    · rintro (h | ⟨rfl, nz⟩)
      · exact h
      · exact there user nz
  · rw [eq] at freed
    cases freed
  · rw [eq, mem_of_insertedAt inserted]
    constructor
    · rintro (h | rfl)
      · exact .inl h
      · exact .inr ⟨rfl, nz⟩
    · rintro (h | ⟨h, -⟩)
      · exact .inl h
      · exact .inr h

/-- A frame that is not in the pool needs a node, and is lost without one. -/
theorem freeFrame_absent {vm : VmState} {n : Nat} (user : userPageStart ≤ n * pageSize)
    (nz : n * pageSize ≠ zeroFrame) (absent : n * pageSize ∉ vm.allocList) :
    (freeFrame vm (n * pageSize)).1 = vm.oracle 0 ∧
      (freeFrame vm (n * pageSize)).2.oracle = (fun k => vm.oracle (k + 1)) ∧
      (vm.oracle 0 = false → (freeFrame vm (n * pageSize)).2.allocList = vm.allocList) := by
  have cases := freeFrame_cases vm (n * pageSize)
  rw [frame_aligned] at cases
  rcases cases with ⟨-, there⟩ | ⟨-, -, ⟨lost, eq⟩ | ⟨free, got, -, eq⟩⟩
  · exact absurd (there user nz) absent
  · rw [eq, lost]
    exact ⟨rfl, rfl, fun _ => rfl⟩
  · rw [eq, got]
    exact ⟨rfl, rfl, fun h => by cases h⟩

/-! ### Directories at a distance -/

section
variable (vm : VmState) {d e : Nat} (v n : Nat) (ne : e ≠ d)

include ne

theorem setDir_dirs (pd : PageDir) : (vm.setDir d pd).dirs e = vm.dirs e :=
  Function.update_of_ne ne _ _

omit ne in
theorem mapPage_dirs {finish : VmState → PageDir → Bool × VmState}
    (far : ∀ vm pd, (finish vm pd).2.dirs e = vm.dirs e) :
    (mapPage vm d v finish).2.dirs e = vm.dirs e := by
  unfold mapPage
  cases vm.dirs d with
  | none => rfl
  | some pd =>
      dsimp only
      split
      · rfl
      · split
        · cases h : vm.oracle 0 <;> simp only [VmState.malloc, h]
          exact far _ _
        · exact far _ _
        · rfl

theorem mapNewFrame_dirs : (mapNewFrame vm d v).2.dirs e = vm.dirs e := by
  refine mapPage_dirs vm v fun vm pd => ?_
  unfold allocFrame
  cases vm.allocList with
  | nil => exact setDir_dirs _ ne _
  | cons frame rest => exact setDir_dirs _ ne _

theorem mapZeroFrame_dirs : (mapZeroFrame vm d v).2.dirs e = vm.dirs e :=
  mapPage_dirs vm v fun vm _ => setDir_dirs vm ne _

theorem unmapFrame_dirs : (unmapFrame vm d v).2.dirs e = vm.dirs e := by
  unfold unmapFrame
  cases vm.dirs d with
  | none => rfl
  | some pd =>
      dsimp only
      split
      · rfl
      · split
        · rw [freeFrame_dirs]
          exact setDir_dirs vm ne _
        · rfl

theorem setAccess_dirs : (setAccess vm d v n).2.dirs e = vm.dirs e := by
  unfold setAccess
  cases vm.dirs d with
  | none => rfl
  | some pd =>
      dsimp only
      split
      · rfl
      · split
        · cases Access.ofNat? n with
          | none => rfl
          | some rw => exact setDir_dirs vm ne _
        · rfl

theorem setAvailability_dirs : (setAvailability vm d v n).2.dirs e = vm.dirs e := by
  unfold setAvailability
  cases vm.dirs d with
  | none => rfl
  | some pd =>
      cases Availability.ofNat? n with
      | none => rfl
      | some avail =>
          dsimp only
          split
          · rfl
          · split
            · split
              · rfl
              · cases h : vm.oracle 0 <;> simp only [VmState.malloc, h]
                exact setDir_dirs _ ne _
            · exact setDir_dirs vm ne _
            · rfl

end

/-! ### Frames between the pool and one directory -/

/-- The frame is in the pool or a page of the directory is mapped to it. -/
def VmState.Has (vm : VmState) (d f : Nat) : Prop :=
  f ∈ vm.allocList ∨ ∃ page, vm.abs.Maps d page f

/-- No directory other than `d` has changed between `vm₀` and `vm`. -/
structure Apart (d : Nat) (vm₀ vm : VmState) : Prop where
  wf : vm.abs.Wf
  dirs : ∀ e, e ≠ d → vm.dirs e = vm₀.dirs e
  next : vm.nextDir = vm₀.nextDir

/-- And frames have only moved between the pool and directory `d`. -/
structure Within (d : Nat) (vm₀ vm : VmState) : Prop extends Apart d vm₀ vm where
  frames : ∀ f, f ≠ zeroFrame → (vm.Has d f ↔ vm₀.Has d f)

theorem Apart.refl {vm : VmState} (wf : vm.abs.Wf) (d : Nat) : Apart d vm vm :=
  ⟨wf, fun _ _ => rfl, rfl⟩

theorem Apart.trans {d : Nat} {vm₀ vm vm' : VmState} (h : Apart d vm₀ vm)
    (h' : Apart d vm vm') : Apart d vm₀ vm' :=
  ⟨h'.wf, fun e ne => (h'.dirs e ne).trans (h.dirs e ne), h'.next.trans h.next⟩

theorem Apart.space {d : Nat} {vm₀ vm : VmState} (h : Apart d vm₀ vm) {e : Nat} (ne : e ≠ d) :
    vm.abs.space e = vm₀.abs.space e := by
  simp only [VmState.abs, h.dirs e ne]

theorem Within.refl {vm : VmState} (wf : vm.abs.Wf) (d : Nat) : Within d vm vm :=
  ⟨.refl wf d, fun _ _ => Iff.rfl⟩

theorem Within.trans {d : Nat} {vm₀ vm vm' : VmState} (h : Within d vm₀ vm)
    (h' : Within d vm vm') : Within d vm₀ vm' :=
  ⟨h.toApart.trans h'.toApart, fun f nz => (h'.frames f nz).trans (h.frames f nz)⟩

/-- Nothing has changed but page tables, the nodes of the heap and the outcomes to
come. -/
theorem Within.of_abs {d : Nat} {vm vm' : VmState} (wf : vm.abs.Wf) (abs : vm'.abs = vm.abs)
    (dirs : ∀ e, e ≠ d → vm'.dirs e = vm.dirs e) : Within d vm vm' := by
  have free : vm'.allocList = vm.allocList := congrArg Spaces.free abs
  refine ⟨⟨abs ▸ wf, dirs, congrArg Spaces.next abs⟩, fun f _ => ?_⟩
  rw [VmState.Has, VmState.Has, abs, free]

theorem maps_of_update {vm vm' : VmState} {d page : Nat} {space : Nat → PageState}
    {state : PageState} (hd : vm.abs.space d = some space) (hp : UserPage page)
    (abs : vm'.abs.space = Function.update vm.abs.space d (some (Function.update space page state)))
    {q f : Nat} : vm'.abs.Maps d q f ↔
      if q = page then state.frame? = some f else vm.abs.Maps d q f := by
  unfold Spaces.Maps
  rw [abs, Function.update_self, hd]
  split
  · rename_i same
    subst same
    simp [hp]
  · rename_i other
    simp [Function.update_of_ne other]

/-- One page has changed, and its frame has come from the pool or gone there. -/
theorem Within.of_page {vm vm' : VmState} {d page : Nat} {space : Nat → PageState}
    {state : PageState} (wf : vm'.abs.Wf) (hd : vm.abs.space d = some space)
    (hp : UserPage page)
    (abs : vm'.abs.space = Function.update vm.abs.space d (some (Function.update space page state)))
    (dirs : ∀ e, e ≠ d → vm'.dirs e = vm.dirs e) (next : vm'.nextDir = vm.nextDir)
    (pool : ∀ f, f ≠ zeroFrame → (f ∈ vm'.allocList ∨ state.frame? = some f ↔
      f ∈ vm.allocList ∨ (space page).frame? = some f)) : Within d vm vm' := by
  refine ⟨⟨wf, dirs, next⟩, fun f nz => ?_⟩
  have new : ∀ q, vm'.abs.Maps d q f ↔ if q = page then state.frame? = some f
      else vm.abs.Maps d q f := fun q => maps_of_update hd hp abs
  have old : vm.abs.Maps d page f ↔ (space page).frame? = some f := by
    simp [Spaces.Maps, hd, hp]
  have moved := pool f nz
  constructor
  · rintro (h | ⟨q, h⟩)
    · rcases moved.mp (.inl h) with h | h
      · exact .inl h
      · exact .inr ⟨page, old.mpr h⟩
    · rw [new q] at h
      split at h
      · rcases moved.mp (.inr h) with h | h
        · exact .inl h
        · exact .inr ⟨page, old.mpr h⟩
      · exact .inr ⟨q, h⟩
  · rintro (h | ⟨q, h⟩)
    · rcases moved.mpr (.inl h) with h | h
      · exact .inl h
      · exact .inr ⟨page, (new page).mpr (by rwa [if_pos rfl])⟩
    · by_cases same : q = page
      · subst same
        rcases moved.mpr (.inr (old.mp h)) with h | h
        · exact .inl h
        · exact .inr ⟨q, (new q).mpr (by rwa [if_pos rfl])⟩
      · exact .inr ⟨q, (new q).mpr (by rwa [if_neg same])⟩

/-- `free_frame` gets its node when `unmap_frame` calls it. -/
def UnmapFrees (vm : VmState) (d v : Nat) : Prop :=
  ∀ pd pte, vm.dirs d = some pd → findFrame pd v = .physicalFrameMapped pte →
    (freeFrame (vm.setDir d (writePte pd v { available := .available }))
      (pte.pageAddr * pageSize)).1 = true

instance UnmapFrees.decidable (vm : VmState) (d v : Nat) : Decidable (UnmapFrees vm d v) :=
  match dir : vm.dirs d with
  | none => .isTrue fun pd _ h => by rw [dir] at h; cases h
  | some pd => match find : findFrame pd v with
    | .physicalFrameMapped pte =>
        decidable_of_iff ((freeFrame (vm.setDir d (writePte pd v { available := .available }))
          (pte.pageAddr * pageSize)).1 = true)
        ⟨fun h pd' pte' dir' find' => by
          rw [dir, Option.some.injEq] at dir'
          subst dir'
          rw [find, LookupResult.physicalFrameMapped.injEq] at find'
          rwa [← find'], fun h => h pd pte dir find⟩
    | .nonpresentPde _ | .nonpresentPte _ => .isTrue fun pd' pte dir' find' => by
        rw [dir, Option.some.injEq] at dir'
        subst dir'
        rw [find] at find'
        cases find'

section
variable {vm : VmState} (wf : vm.abs.Wf) (d v n : Nat)

include wf

theorem within_malloc : Within d vm vm.malloc.2 := Within.of_abs wf rfl fun _ _ => rfl

theorem within_mapNewFrame : Within d vm (mapNewFrame vm d v).2 := by
  have dirs : ∀ e, e ≠ d → (mapNewFrame vm d v).2.dirs e = vm.dirs e :=
    fun e ne => mapNewFrame_dirs vm v ne
  have wf' := wf.mapNewFrame d v
  rcases mapNewFrame_spec vm d v with ⟨-, abs⟩ | ⟨space, frame, rest, avail, -, hd, hp, state, free, abs⟩
  · exact Within.of_abs wf abs dirs
  have frame_eq := frame?_newFramePte (wf.pool frame (free ▸ List.mem_cons_self)).1
  have pool : (mapNewFrame vm d v).2.allocList = rest := congrArg Spaces.free abs
  have was : vm.allocList = frame :: rest := free
  refine Within.of_page wf' hd hp (congrArg Spaces.space abs) dirs (congrArg Spaces.next abs)
    fun f _ => ?_
  rw [pool, was, frame_eq, state]
  simp [PageState.frame?, or_comm, eq_comm]

theorem within_mapZeroFrame : Within d vm (mapZeroFrame vm d v).2 := by
  have dirs : ∀ e, e ≠ d → (mapZeroFrame vm d v).2.dirs e = vm.dirs e :=
    fun e ne => mapZeroFrame_dirs vm v ne
  have wf' := wf.mapZeroFrame d v
  rcases mapZeroFrame_spec vm d v with ⟨-, abs⟩ | ⟨space, avail, -, hd, hp, state, abs⟩
  · exact Within.of_abs wf abs dirs
  have pool : (mapZeroFrame vm d v).2.allocList = vm.allocList := congrArg Spaces.free abs
  refine Within.of_page wf' hd hp (congrArg Spaces.space abs) dirs (congrArg Spaces.next abs)
    fun f nz => ?_
  rw [pool, frame?_zeroFramePte, state]
  simp [PageState.frame?, Ne.symm nz]

theorem within_setAccess : Within d vm (setAccess vm d v n).2 := by
  have dirs : ∀ e, e ≠ d → (setAccess vm d v n).2.dirs e = vm.dirs e :=
    fun e ne => setAccess_dirs vm v n ne
  have wf' := wf.setAccess d v n
  rcases setAccess_spec vm d v n with ⟨-, abs⟩ | ⟨space, pte, rw, -, hd, hp, state, -, abs⟩
  · exact Within.of_abs wf abs dirs
  have pool : (setAccess vm d v n).2.allocList = vm.allocList := congrArg Spaces.free abs
  refine Within.of_page wf' hd hp (congrArg Spaces.space abs) dirs (congrArg Spaces.next abs)
    fun f _ => ?_
  rw [pool, state]
  rfl

theorem within_setAvailability : Within d vm (setAvailability vm d v n).2 := by
  have dirs : ∀ e, e ≠ d → (setAvailability vm d v n).2.dirs e = vm.dirs e :=
    fun e ne => setAvailability_dirs vm v n ne
  have wf' := wf.setAvailability d v n
  rcases setAvailability_spec vm d v n with ⟨-, abs⟩ | ⟨space, old, avail, -, hd, hp, state, -, abs⟩
  · exact Within.of_abs wf abs dirs
  have pool : (setAvailability vm d v n).2.allocList = vm.allocList := congrArg Spaces.free abs
  refine Within.of_page wf' hd hp (congrArg Spaces.space abs) dirs (congrArg Spaces.next abs)
    fun f _ => ?_
  rw [pool, state]
  rfl

end

/-! ### Operations that do not fail -/

/-- The page has a page table. -/
def VmState.Tabled (vm : VmState) (d v : Nat) : Prop :=
  ∃ pd, vm.dirs d = some pd ∧ HasTable pd v

theorem find_of_mapped {pd : PageDir} {v : Nat} {pte : Pte}
    (state : stateOf pd (pageOf v) = .mapped pte) :
    findFrame pd v = .physicalFrameMapped pte ∧ HasTable pd v := by
  rcases findFrame_cases pd v with ⟨avail, -, other⟩ | ⟨pte', -, -, -, other⟩ |
    ⟨pte', found, -, table, same⟩
  · rw [other] at state
    cases state
  · rw [other] at state
    cases state
  · rw [same, PageState.mapped.injEq] at state
    exact ⟨state ▸ found, table⟩

theorem hasTable_writePte {pd : PageDir} {v : Nat} (table : HasTable pd v) (pte : Pte) :
    HasTable (writePte pd v pte) v := by
  obtain ⟨rw, us, g, pt, h⟩ := table
  exact ⟨rw, us, g, Function.update pt (pteIdx v) pte,
    by simp only [writePte, h, Function.update_self]⟩

/-- The directory behind a space. -/
theorem dir_of_space {vm : VmState} {d : Nat} {space : Nat → PageState}
    (hd : vm.abs.space d = some space) : ∃ pd, vm.dirs d = some pd ∧ stateOf pd = space := by
  simpa [VmState.abs, Option.map_eq_some_iff] using hd

/-- `get_availability` answers with the available bits of a user page that is not
mapped. -/
theorem getAvailability_eq {vm : VmState} {d v : Nat} {avail : Availability} :
    getAvailability vm d v = some avail ↔ ∃ space, vm.abs.space d = some space ∧
      UserPage (pageOf v) ∧ space (pageOf v) = .unmapped avail := by
  unfold getAvailability
  cases dir : vm.dirs d with
  | none => simp [abs_space_none dir]
  | some pd =>
      simp only [abs_space_some dir, Option.some.injEq, exists_eq_left']
      by_cases low : pageOf v * pageSize < userPageStart
      · simp [low, not_userPage.mp low]
      have user : UserPage (pageOf v) := not_not.mp (mt not_userPage.mpr low)
      rcases findFrame_cases pd v with ⟨avail', found, state⟩ | ⟨pte, found, -, -, state⟩ |
        ⟨pte, found, -, -, state⟩ <;> simp [low, user, found, state]

/-- `get_access` answers with the read/write bit of a user page that is mapped. -/
theorem getAccess_eq {vm : VmState} {d v : Nat} {access : Access} :
    getAccess vm d v = some access ↔ ∃ space pte, vm.abs.space d = some space ∧
      UserPage (pageOf v) ∧ space (pageOf v) = .mapped pte ∧ pte.rw = access := by
  unfold getAccess
  cases dir : vm.dirs d with
  | none => simp [abs_space_none dir]
  | some pd =>
      by_cases low : pageOf v * pageSize < userPageStart
      · simp [low, not_userPage.mp low]
      have user : UserPage (pageOf v) := not_not.mp (mt not_userPage.mpr low)
      rcases findFrame_cases pd v with ⟨avail', found, state⟩ | ⟨pte, found, -, -, state⟩ |
        ⟨pte, found, -, -, state⟩ <;> simp [low, user, found, state, abs_space_some dir]

/-- What `check_user_page` sees of a user page; a PDE that is not present stands for
all its pages. -/
theorem checkUserPage_cases {vm : VmState} {d v : Nat} {space : Nat → PageState}
    (hd : vm.abs.space d = some space) (hp : UserPage (pageOf v)) :
    (∃ avail, checkUserPage vm d v = some .pdeNotPresent ∧
        ∀ q, q / pteCount = pageOf v / pteCount → space q = .unmapped avail) ∨
      (∃ avail, checkUserPage vm d v = some .pteNotPresent ∧ space (pageOf v) = .unmapped avail) ∨
      (∃ pte, checkUserPage vm d v = some .zeroFrameMapped ∧ space (pageOf v) = .mapped pte ∧
        pte.pageAddr * pageSize = zeroFrame) ∨
      ∃ pte, checkUserPage vm d v = some .newFrameMapped ∧ space (pageOf v) = .mapped pte ∧
        pte.pageAddr * pageSize ≠ zeroFrame := by
  obtain ⟨pd, dir, rfl⟩ := dir_of_space hd
  have user : ¬ pageOf v * pageSize < userPageStart := fun h => not_userPage.mp h hp
  unfold checkUserPage
  simp only [dir, user, ↓reduceIte]
  rcases findFrame_cases pd v with ⟨avail, found, -⟩ | ⟨pte, found, -, -, here⟩ |
    ⟨pte, found, -, -, here⟩ <;> simp only [found]
  · refine .inl ⟨avail, trivial, fun q same => ?_⟩
    have absent : pd (pdeIdx v) = .absent avail := by
      unfold findFrame at found
      split at found
      · cases found
        assumption
      · split at found <;> cases found
    have : pd (q / pteCount) = .absent avail := same ▸ absent
    rw [stateOf, this]
  · exact .inr (.inl ⟨pte.available, trivial, here⟩)
  · by_cases zero : pte.pageAddr * pageSize = zeroFrame
    · exact .inr (.inr (.inl ⟨pte, by rw [if_pos zero], here, zero⟩))
    · exact .inr (.inr (.inr ⟨pte, by rw [if_neg zero], here, zero⟩))

/-- `unmap_frame` of a page that is mapped: the state in which it calls
`free_frame`, and what is left of the page. -/
theorem unmapFrame_mapped {vm : VmState} {d v : Nat} {space : Nat → PageState} {pte : Pte}
    (hd : vm.abs.space d = some space) (hp : UserPage (pageOf v))
    (state : space (pageOf v) = .mapped pte) :
    ∃ vm', vm'.allocList = vm.allocList ∧ vm'.oracle = vm.oracle ∧ vm'.nextDir = vm.nextDir ∧
      vm'.abs = vm.abs.setPage d space (pageOf v) (.unmapped .available) ∧ vm'.Tabled d v ∧
      (UnmapFrees vm d v → (freeFrame vm' (pte.pageAddr * pageSize)).1 = true) ∧
      unmapFrame vm d v = (true, (freeFrame vm' (pte.pageAddr * pageSize)).2) := by
  obtain ⟨pd, dir, rfl⟩ := dir_of_space hd
  obtain ⟨found, table⟩ := find_of_mapped state
  refine ⟨vm.setDir d (writePte pd v { available := .available }), rfl, rfl, rfl,
    setDir_writePte_abs vm d v _ table rfl, ⟨_, Function.update_self .., hasTable_writePte table _⟩,
    fun frees => frees pd pte dir found, ?_⟩
  have user : ¬ pageOf v * pageSize < userPageStart := fun h => not_userPage.mp h hp
  simp only [unmapFrame, dir, user, ↓reduceIte, found]

theorem unmapFrame_next (vm : VmState) (d v : Nat) :
    (unmapFrame vm d v).2.nextDir = vm.nextDir := by
  rcases unmapFrame_spec vm d v with ⟨-, same⟩ | ⟨_, _, vm', -, -, -, -, same, eq⟩
  · exact congrArg Spaces.next same
  · rw [eq]
    exact (freeFrame_next vm' _).trans (congrArg Spaces.next same)

/-- What `unmap_frame` does to the pool and to the allocations to come. -/
theorem unmapFrame_pool {vm : VmState} (wf : vm.abs.Wf) {d v : Nat} {space : Nat → PageState}
    {pte : Pte} (hd : vm.abs.space d = some space) (hp : UserPage (pageOf v))
    (state : space (pageOf v) = .mapped pte) (nz : pte.pageAddr * pageSize ≠ zeroFrame) :
    (unmapFrame vm d v).2.oracle = (fun i => vm.oracle (i + 1)) ∧
      ∀ f, f ∈ (unmapFrame vm d v).2.allocList ↔
        f ∈ vm.allocList ∨ vm.oracle 0 = true ∧ f = pte.pageAddr * pageSize := by
  have maps : vm.abs.Maps d (pageOf v) (pte.pageAddr * pageSize) :=
    ⟨hp, space, hd, by simp [state, PageState.frame?]⟩
  have user := wf.user _ _ _ maps
  obtain ⟨vm', pool, oracle, -, -, -, -, eq⟩ := unmapFrame_mapped hd hp state
  have absent : pte.pageAddr * pageSize ∉ vm'.allocList := by
    rw [pool]
    exact wf.unmapped _ _ _ maps nz
  obtain ⟨flag, shifted, lost⟩ := freeFrame_absent user nz absent
  rw [eq, ← oracle, ← pool]
  refine ⟨shifted, fun f => ?_⟩
  cases got : vm'.oracle 0 with
  | false => simp [lost got]
  | true =>
      rw [mem_freeFrame (flag.trans got) user]
      constructor
      · rintro (h | ⟨h, -⟩)
        · exact .inl h
        · exact .inr ⟨rfl, h⟩
      · rintro (h | ⟨-, h⟩)
        · exact .inl h
        · exact .inr ⟨h, h ▸ nz⟩

theorem within_unmapFrame {vm : VmState} (wf : vm.abs.Wf) (d v : Nat)
    (frees : UnmapFrees vm d v) : Within d vm (unmapFrame vm d v).2 := by
  have dirs : ∀ e, e ≠ d → (unmapFrame vm d v).2.dirs e = vm.dirs e :=
    fun e ne => unmapFrame_dirs vm v ne
  have wf' := wf.unmapFrame d v
  rcases unmapFrame_spec vm d v with ⟨-, abs⟩ | ⟨space, pte, -, -, hd, hp, state, -⟩
  · exact Within.of_abs wf abs dirs
  obtain ⟨vm', pool, -, next, abs, -, freed, eq⟩ := unmapFrame_mapped hd hp state
  have user := wf.user d (pageOf v) (pte.pageAddr * pageSize)
    ⟨hp, space, hd, by rw [state]; rfl⟩
  rw [eq] at wf' dirs ⊢
  have abs' : (freeFrame vm' (pte.pageAddr * pageSize)).2.abs.space = Function.update vm.abs.space d
      (some (Function.update space (pageOf v) (.unmapped .available))) := by
    rw [freeFrame_space, abs]
    rfl
  refine Within.of_page wf' hd hp abs' dirs ?_ fun f nz => ?_
  · exact (freeFrame_next vm' _).trans next
  · rw [mem_freeFrame (freed frees) user, pool, state]
    simp only [PageState.frame?, Option.some.injEq, reduceCtorEq, or_false]
    constructor
    · rintro (h | ⟨h, -⟩)
      · exact .inl h
      · exact .inr h.symm
    · rintro (h | h)
      · exact .inl h
      · exact .inr ⟨h.symm, nz⟩

/-- `set_availability` of a page with a page table allocates nothing. -/
theorem setAvailability_tabled {vm : VmState} {d v n : Nat} {space : Nat → PageState}
    {old avail : Availability} (hd : vm.abs.space d = some space) (hp : UserPage (pageOf v))
    (state : space (pageOf v) = .unmapped old) (table : vm.Tabled d v)
    (bits : Availability.ofNat? n = some avail) :
    ∃ pd, setAvailability vm d v n = (true, vm.setDir d pd) ∧ HasTable pd v ∧
      stateOf pd = Function.update space (pageOf v) (.unmapped avail) := by
  obtain ⟨pd, dir, table⟩ := table
  have space_eq : stateOf pd = space := Option.some.inj ((abs_space_some dir).symm.trans hd)
  subst space_eq
  have user : ¬ pageOf v * pageSize < userPageStart := fun h => not_userPage.mp h hp
  rcases findFrame_cases pd v with ⟨avail, found, -⟩ | ⟨pte, found, absent, -⟩ | ⟨pte, -, -, -, other⟩
  · obtain ⟨rw, us, g, pt, h⟩ := table
    simp only [findFrame, h] at found
    split at found <;> cases found
  · refine ⟨writePte pd v { pte with available := avail }, ?_, hasTable_writePte table _, ?_⟩
    · simp only [setAvailability, dir, bits, user, ↓reduceIte, found]
    · rw [stateOf_writePte table]
      simp [Pte.state, absent]
  · rw [other] at state
    cases state

/-- `set_availability` that changes the available bits leaves a page table behind. -/
theorem setAvailability_makes {vm : VmState} {d v n : Nat} {space : Nat → PageState}
    {old avail : Availability} (hd : vm.abs.space d = some space)
    (state : space (pageOf v) = .unmapped old) (bits : Availability.ofNat? n = some avail)
    (differs : old ≠ avail) (ok : (setAvailability vm d v n).1 = true) :
    (setAvailability vm d v n).2.Tabled d v := by
  obtain ⟨pd, dir, rfl⟩ := dir_of_space hd
  have user : ¬ pageOf v * pageSize < userPageStart := by
    intro low
    simp [setAvailability, dir, bits, low] at ok
  rcases findFrame_cases pd v with ⟨avail', found, same⟩ | ⟨pte, found, -, table, -⟩ |
    ⟨pte, -, -, -, other⟩
  · rw [same, PageState.unmapped.injEq] at state
    subst state
    cases h : vm.oracle 0 <;>
      simp only [setAvailability, dir, bits, user, ↓reduceIte, found, differs, VmState.malloc, h] at ok ⊢
    · cases ok
    · exact ⟨_, Function.update_self .., hasTable_writePte (hasTable_createTable pd v) _⟩
  · simp only [setAvailability, dir, bits, user, ↓reduceIte, found]
    exact ⟨_, Function.update_self .., hasTable_writePte table _⟩
  · rw [other] at state
    cases state

/-- `map_new_frame` keeps the page table, also when it fails. -/
theorem mapNewFrame_tabled {vm : VmState} {d v : Nat} (table : vm.Tabled d v) :
    (mapNewFrame vm d v).2.Tabled d v := by
  obtain ⟨pd, dir, table⟩ := table
  unfold mapNewFrame mapPage
  rw [dir]
  dsimp only
  split
  · exact ⟨pd, dir, table⟩
  cases found : findFrame pd v with
  | nonpresentPde avail =>
      obtain ⟨rw, us, g, pt, h⟩ := table
      simp only [findFrame, h] at found
      split at found <;> cases found
  | nonpresentPte pte =>
      dsimp only
      unfold allocFrame
      cases vm.allocList with
      | nil => exact ⟨pd, Function.update_self .., table⟩
      | cons frame rest => exact ⟨_, Function.update_self .., hasTable_writePte table _⟩
  | physicalFrameMapped pte => exact ⟨pd, dir, table⟩

/-! ### A directory given up, a directory put back -/

/-- `free_frame` gets its node whenever the inner loop of `destruct_page_dir` calls
it. -/
def TableFrees (i : Nat) (pt : PageTable) : List Nat → VmState → Prop
  | [], _ => True
  | j :: js, vm =>
      if (pt j).p ∧ kernelPageCount ≤ i * pteCount + j then
        (freeFrame vm ((pt j).pageAddr * pageSize)).1 = true ∧
          TableFrees i pt js (freeFrame vm ((pt j).pageAddr * pageSize)).2
      else TableFrees i pt js vm

def TablesFree (pd : PageDir) : List Nat → VmState → Prop
  | [], _ => True
  | i :: is, vm => match pd i with
      | .absent _ => TablesFree pd is vm
      | .present _ _ _ pt => TableFrees i pt (List.range pteCount) vm ∧
          TablesFree pd is (freeTable i pt (List.range pteCount) vm)

instance TableFrees.decidable (i : Nat) (pt : PageTable) :
    ∀ (js : List Nat) (vm : VmState), Decidable (TableFrees i pt js vm)
  | [], _ => .isTrue trivial
  | j :: js, vm =>
    have := TableFrees.decidable i pt js
    inferInstanceAs (Decidable (if (pt j).p ∧ kernelPageCount ≤ i * pteCount + j then
      (freeFrame vm ((pt j).pageAddr * pageSize)).1 = true ∧
        TableFrees i pt js (freeFrame vm ((pt j).pageAddr * pageSize)).2
      else TableFrees i pt js vm))

instance TablesFree.decidable (pd : PageDir) :
    ∀ (is : List Nat) (vm : VmState), Decidable (TablesFree pd is vm)
  | [], _ => .isTrue trivial
  | i :: is, vm =>
    have rest := TablesFree.decidable pd is
    match h : pd i with
    | .absent _ => decidable_of_iff (TablesFree pd is vm) (by rw [TablesFree, h])
    | .present rw us g pt => decidable_of_iff (TableFrees i pt (List.range pteCount) vm ∧
        TablesFree pd is (freeTable i pt (List.range pteCount) vm)) (by rw [TablesFree, h])

/-- `free_frame` gets its node whenever `destruct_page_dir` calls it. -/
@[irreducible] def DestructFrees (vm : VmState) (d : Nat) : Prop :=
  ∀ pd, vm.dirs d = some pd → TablesFree pd (List.range pdeCount) vm

instance DestructFrees.decidable (vm : VmState) (d : Nat) : Decidable (DestructFrees vm d) :=
  decidable_of_iff (∀ pd ∈ vm.dirs d, TablesFree pd (List.range pdeCount) vm) (by
    unfold DestructFrees
    rfl)

/-- The frame that a PTE of a table gives back. -/
def Gives (i : Nat) (pt : PageTable) (j f : Nat) : Prop :=
  (pt j).p = true ∧ kernelPageCount ≤ i * pteCount + j ∧ (pt j).pageAddr * pageSize = f

theorem mem_freeTable {i : Nat} {pt : PageTable} {js : List Nat} {vm : VmState}
    (frees : TableFrees i pt js vm)
    (user : ∀ j ∈ js, ∀ f, Gives i pt j f → userPageStart ≤ f) {f : Nat} (nz : f ≠ zeroFrame) :
    f ∈ (freeTable i pt js vm).allocList ↔ f ∈ vm.allocList ∨ ∃ j ∈ js, Gives i pt j f := by
  induction js generalizing vm with
  | nil => simp [freeTable]
  | cons j js ih =>
      have user' : ∀ j' ∈ js, ∀ f, Gives i pt j' f → userPageStart ≤ f :=
        fun j' hj' => user j' (List.mem_cons_of_mem j hj')
      unfold TableFrees at frees
      unfold freeTable
      by_cases given : (pt j).p ∧ kernelPageCount ≤ i * pteCount + j
      · rw [if_pos given] at frees ⊢
        have gives : ∀ g, Gives i pt j g ↔ g = (pt j).pageAddr * pageSize := by
          intro g
          simp [Gives, given, eq_comm]
        rw [ih frees.2 user', mem_freeFrame frees.1
          (user j List.mem_cons_self _ ((gives _).mpr rfl)), List.exists_mem_cons_iff, gives]
        simp only [nz, ne_eq, not_false_eq_true, and_true, or_assoc]
      · rw [if_neg given] at frees ⊢
        have gives : ∀ g, ¬ Gives i pt j g := fun g h => given ⟨h.1, h.2.1⟩
        rw [ih frees user', List.exists_mem_cons_iff]
        simp [gives]

theorem mem_freeTables {pd : PageDir} {is : List Nat} {vm : VmState}
    (frees : TablesFree pd is vm)
    (user : ∀ i ∈ is, ∀ rw us g pt, pd i = .present rw us g pt → ∀ j < pteCount, ∀ f,
      Gives i pt j f → userPageStart ≤ f) {f : Nat} (nz : f ≠ zeroFrame) :
    f ∈ (freeTables pd is vm).allocList ↔ f ∈ vm.allocList ∨
      ∃ i ∈ is, ∃ rw us g pt, pd i = .present rw us g pt ∧ ∃ j < pteCount, Gives i pt j f := by
  induction is generalizing vm with
  | nil => simp [freeTables]
  | cons i is ih =>
      have user' := fun i' (hi' : i' ∈ is) => user i' (List.mem_cons_of_mem i hi')
      unfold TablesFree at frees
      unfold freeTables
      rw [List.exists_mem_cons_iff]
      cases hi : pd i with
      | absent avail =>
          rw [hi] at frees
          simp only [reduceCtorEq, false_and, exists_false, false_or]
          exact ih frees user'
      | present rw us g pt =>
          have all : ∀ j, j ∈ List.range pteCount ↔ j < pteCount := fun j => List.mem_range
          simp only [hi] at frees ⊢
          generalize List.range pteCount = entries at all frees ⊢
          have user'' : ∀ j ∈ entries, ∀ f, Gives i pt j f → userPageStart ≤ f :=
            fun j hj => user i List.mem_cons_self rw us g pt hi j ((all j).mp hj)
          rw [ih frees.2 user', mem_freeTable frees.1 user'' nz, or_assoc]
          simp only [all, Pde.present.injEq]
          refine or_congr_right (or_congr_left ?_)
          constructor
          · rintro ⟨j, hj, h⟩
            exact ⟨rw, us, g, pt, ⟨rfl, rfl, rfl, rfl⟩, j, hj, h⟩
          · rintro ⟨_, _, _, _, ⟨rfl, rfl, rfl, rfl⟩, j, hj, h⟩
            exact ⟨j, hj, h⟩

/-- A page of a directory is an entry of one of its tables. -/
theorem maps_iff_gives {vm : VmState} {d : Nat} {pd : PageDir} (dir : vm.dirs d = some pd)
    (f : Nat) : (∃ page, vm.abs.Maps d page f) ↔ ∃ i ∈ List.range pdeCount, ∃ rw us g pt,
      pd i = .present rw us g pt ∧ ∃ j < pteCount, Gives i pt j f := by
  constructor
  · rintro ⟨page, hp, space, hd, hf⟩
    rw [abs_space_some dir, Option.some.injEq] at hd
    subst hd
    have split : page / pteCount * pteCount + page % pteCount = page := Nat.div_add_mod' page pteCount
    cases hi : pd (page / pteCount) with
    | absent avail => simp [stateOf, hi, PageState.frame?] at hf
    | present rw us g pt =>
        refine ⟨page / pteCount, ?_, rw, us, g, pt, hi, page % pteCount, Nat.mod_lt _ (by decide), ?_⟩
        · have := hp.2
          simp only [List.mem_range, pdeCount, pteCount, pageSize, virtualAddrEnd] at this ⊢
          omega
        · simp only [stateOf, hi, Pte.state] at hf
          split at hf
          · rename_i present
            simp only [PageState.frame?, Option.some.injEq] at hf
            exact ⟨present, split.symm ▸ hp.1, hf⟩
          · cases hf
  · rintro ⟨i, hi, rw, us, g, pt, hpd, j, hj, present, low, rfl⟩
    rw [List.mem_range] at hi
    have div : (i * pteCount + j) / pteCount = i := by
      rw [Nat.mul_comm, Nat.mul_add_div (by decide), Nat.div_eq_of_lt hj, Nat.add_zero]
    have mod : (i * pteCount + j) % pteCount = j := by
      rw [Nat.mul_comm, Nat.mul_add_mod, Nat.mod_eq_of_lt hj]
    refine ⟨i * pteCount + j, userPage_of_table hi hj low, stateOf pd,
      abs_space_some dir, ?_⟩
    simp [stateOf, div, mod, hpd, Pte.state, present, PageState.frame?]

theorem freeTable_dirs (i : Nat) (pt : PageTable) (js : List Nat) (vm : VmState) :
    (freeTable i pt js vm).dirs = vm.dirs := by
  induction js generalizing vm with
  | nil => rfl
  | cons j js ih =>
      unfold freeTable
      split
      · rw [ih, freeFrame_dirs]
      · exact ih vm

theorem freeTables_dirs (pd : PageDir) (is : List Nat) (vm : VmState) :
    (freeTables pd is vm).dirs = vm.dirs := by
  induction is generalizing vm with
  | nil => rfl
  | cons i is ih =>
      unfold freeTables
      cases pd i with
      | absent avail => exact ih vm
      | present rw us g pt => exact (ih _).trans (freeTable_dirs i pt _ vm)

theorem destructPageDir_dirs (vm : VmState) (d : Nat) :
    (destructPageDir vm d).dirs = Function.update vm.dirs d none := by
  unfold destructPageDir
  cases dir : vm.dirs d with
  | none => exact (Function.update_eq_self_iff.mpr dir.symm).symm
  | some pd => exact congrArg (Function.update · d none) (freeTables_dirs pd _ vm)

/-- The frames of a directory that is given up are in the pool. -/
theorem mem_destructPageDir {vm : VmState} (wf : vm.abs.Wf) {d : Nat}
    (frees : DestructFrees vm d) {f : Nat} (nz : f ≠ zeroFrame) :
    f ∈ (destructPageDir vm d).allocList ↔ vm.Has d f := by
  unfold DestructFrees at frees
  unfold destructPageDir VmState.Has
  cases dir : vm.dirs d with
  | none => simp [Spaces.Maps, abs_space_none dir]
  | some pd =>
      have gives := maps_iff_gives dir
      rw [gives f]
      dsimp only
      generalize List.range pdeCount = tables at gives frees ⊢
      refine mem_freeTables (frees pd dir) (fun i hi rw us g pt hpd j hj f given => ?_) nz
      obtain ⟨page, maps⟩ := (gives f).mpr ⟨i, hi, rw, us, g, pt, hpd, j, hj, given⟩
      exact wf.user d page f maps

theorem eq_of_sorted {xs ys : List Nat} (hx : xs.Pairwise (· < ·)) (hy : ys.Pairwise (· < ·))
    (same : ∀ f, f ∈ xs ↔ f ∈ ys) : xs = ys := by
  have perm : xs.Perm ys :=
    (List.perm_ext_iff_of_nodup (hx.imp Nat.ne_of_lt) (hy.imp Nat.ne_of_lt)).mpr same
  exact perm.eq_of_pairwise (fun a b _ _ lt lt' => absurd lt (Nat.lt_asymm lt')) hx hy

/-- A call that has put the pages of its directory back has put the pool back. -/
theorem Within.pool {d : Nat} {vm₀ vm : VmState} (h : Within d vm₀ vm) (wf₀ : vm₀.abs.Wf)
    (same : vm.abs.space d = vm₀.abs.space d) : vm.allocList = vm₀.allocList := by
  have maps : ∀ page f, vm.abs.Maps d page f ↔ vm₀.abs.Maps d page f := by
    intro page f
    rw [Spaces.Maps, Spaces.Maps, same]
  refine eq_of_sorted h.wf.sorted wf₀.sorted fun f => ?_
  constructor
  · intro hf
    have nz := (h.wf.pool f hf).2.2
    rcases (h.frames f nz).mp (.inl hf) with hf₀ | ⟨page, hm⟩
    · exact hf₀
    · exact absurd hf (h.wf.unmapped d page f ((maps page f).mpr hm) nz)
  · intro hf
    have nz := (wf₀.pool f hf).2.2
    rcases (h.frames f nz).mpr (.inl hf) with hf' | ⟨page, hm⟩
    · exact hf'
    · exact absurd hf (wf₀.unmapped d page f ((maps page f).mp hm) nz)

/-- The frames of a directory that had none and is given up are back in the pool. -/
theorem Within.destruct {d : Nat} {vm₀ vm : VmState} (h : Within d vm₀ vm) (wf₀ : vm₀.abs.Wf)
    (new : ∀ page f, ¬ vm₀.abs.Maps d page f) (frees : DestructFrees vm d) :
    (destructPageDir vm d).allocList = vm₀.allocList := by
  refine eq_of_sorted (h.wf.destruct d).sorted wf₀.sorted fun f => ?_
  constructor
  · intro hf
    have nz := ((h.wf.destruct d).pool f hf).2.2
    rw [mem_destructPageDir h.wf frees nz] at hf
    rcases (h.frames f nz).mp hf with hf₀ | ⟨page, hm⟩
    · exact hf₀
    · exact absurd hm (new page f)
  · intro hf
    have nz := (wf₀.pool f hf).2.2
    rw [mem_destructPageDir h.wf frees nz]
    exact (h.frames f nz).mpr (.inl hf)

/-! ### A directory that is made and given up -/

theorem mallocAll_dirs (n : Nat) (vm : VmState) : (mallocAll n vm).2.dirs = vm.dirs := by
  induction n generalizing vm with
  | zero => rfl
  | succ n ih =>
      unfold mallocAll
      split
      · rename_i next eq
        rw [ih]
        exact (congrArg (fun out => out.2.dirs) eq).symm
      · rename_i next eq
        exact (congrArg (fun out => out.2.dirs) eq).symm

/-- Directory `d` of `vm` is the one that `construct_page_dir` made in `vm₀`. -/
structure Constructed (d : Nat) (vm₀ vm : VmState) : Prop where
  wf : vm.abs.Wf
  absent : vm₀.dirs d = none
  dirs : vm.dirs = Function.update vm₀.dirs d (some freshDir)
  pool : vm.allocList = vm₀.allocList
  next : vm.nextDir = d + 1

/-- `construct_page_dir` fails and leaves no trace, or makes a directory. -/
theorem constructPageDir_cases {vm : VmState} (wf : vm.abs.Wf) :
    ((constructPageDir vm).1 = none ∧ (constructPageDir vm).2.dirs = vm.dirs ∧
        (constructPageDir vm).2.abs = vm.abs) ∨
      (constructPageDir vm).1 = some vm.nextDir ∧
        Constructed vm.nextDir vm (constructPageDir vm).2 := by
  have wf' := wf.construct
  have dirs := mallocAll_dirs (kernelPageTableCount + 1) vm
  have abs := mallocAll_abs (kernelPageTableCount + 1) vm
  have free : vm.dirs vm.nextDir = none := by
    simpa [VmState.abs] using wf.fresh vm.nextDir (Nat.le_refl _)
  unfold constructPageDir at wf' ⊢
  generalize mallocAll (kernelPageTableCount + 1) vm = out at wf' dirs abs ⊢
  obtain ⟨ok, vm'⟩ := out
  have next : vm'.nextDir = vm.nextDir := congrArg Spaces.next abs
  cases ok with
  | false => exact .inl ⟨rfl, dirs, abs⟩
  | true =>
      refine .inr ⟨congrArg some next, wf', free, ?_, congrArg Spaces.free abs, ?_⟩
      · change Function.update vm'.dirs vm'.nextDir _ = _
        rw [next]
        exact congrArg (Function.update · _ _) dirs
      · exact congrArg Nat.succ next

section
variable {d : Nat} {vm₀ vm vm' : VmState}

theorem Constructed.space (h : Constructed d vm₀ vm) : vm.abs.space d = some (stateOf freshDir) := by
  simp [VmState.abs, h.dirs]

theorem Constructed.others (h : Constructed d vm₀ vm) {e : Nat} (ne : e ≠ d) :
    vm.dirs e = vm₀.dirs e := by
  rw [h.dirs, Function.update_of_ne ne]

/-- The new directory has no user page yet. -/
theorem Constructed.empty (h : Constructed d vm₀ vm) (page f : Nat) : ¬ vm.abs.Maps d page f := by
  rintro ⟨user, space, hd, frame⟩
  rw [h.space, Option.some.injEq] at hd
  have : ¬ page < kernelPageCount := Nat.not_lt.mpr user.1
  simp [← hd, stateOf_freshDir, this, PageState.frame?] at frame

/-- A directory that was made and is given up again leaves no trace. -/
theorem Constructed.destruct (h : Constructed d vm₀ vm) (within : Apart d vm vm') :
    (destructPageDir vm' d).dirs = vm₀.dirs := by
  rw [destructPageDir_dirs]
  funext e
  by_cases same : e = d
  · rw [same, Function.update_self, h.absent]
  · rw [Function.update_of_ne same, within.dirs e same, h.others same]

theorem Constructed.pool_destruct (h : Constructed d vm₀ vm) (within : Within d vm vm')
    (frees : DestructFrees vm' d) : (destructPageDir vm' d).allocList = vm₀.allocList :=
  (within.destruct h.wf h.empty frees).trans h.pool

end

end OsKernel.Vm
