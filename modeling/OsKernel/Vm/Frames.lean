/-
No frame is lost while `free_frame` gets its nodes.

A frame is held when it is in the pool or a user page of a live directory is mapped to
it. `unmap_frame` and `destruct_page_dir` drop a PTE before they ask for the node that
the pool needs, and do not look at the answer: each answer that is negative loses a
frame, and no later operation brings it back (`frames_kept_iff`).
-/

import OsKernel.Vm.Accounting

namespace OsKernel.Vm

/-- The frame is in the pool, or a user page of a live directory is mapped to it. -/
def VmState.Held (vm : VmState) (f : Nat) : Prop :=
  f ∈ vm.allocList ∨ ∃ d page, vm.Holds (.pte d page) f

/-- The frame a user page is mapped to, unless that is the zero frame. -/
def ownFrame? (pd : PageDir) (page : Nat) : Option Nat :=
  if UserPage page then (frameOf pd page).filter (· ≠ zeroFrame) else none

/-- The frames of the user pages of a directory, in order. -/
def ownFrames (pd : PageDir) : List Nat :=
  (List.range pdeCount).flatMap fun i =>
    (List.range pteCount).filterMap fun j => ownFrame? pd (i * pteCount + j)

/-- The allocations that an operation needs in order to give its frames back succeed. -/
def VmOp.Granted (vm : VmState) : VmOp → Prop
  | .unmapFrame d v => ∀ f, vm.Holds (.pte d (pageOf v)) f → f ≠ zeroFrame → vm.oracle 0 = true
  | .destructPageDir d => ∀ pd, vm.dirs d = some pd →
      ∀ k < (ownFrames pd).length, vm.oracle k = true
  | _ => True

/-! ### Frames given back one after another -/

def freeAll : List Nat → VmState → VmState
  | [], vm => vm
  | f :: fs, vm => freeAll fs (freeFrame vm f).2

theorem freeFrame_zeroFrame (vm : VmState) : (freeFrame vm zeroFrame).2 = vm := by
  have zero : zeroFrame / pageSize * pageSize = zeroFrame := by decide
  rcases freeFrame_cases vm zeroFrame with ⟨eq, -⟩ | ⟨-, nz, -⟩
  · rw [eq]
  · exact absurd zero nz

theorem freeAll_append (fs gs : List Nat) (vm : VmState) :
    freeAll (fs ++ gs) vm = freeAll gs (freeAll fs vm) := by
  induction fs generalizing vm with
  | nil => rfl
  | cons f fs ih => exact ih _

theorem ownFrame?_absent {pd : PageDir} {i j : Nat} {avail : Availability}
    (h : pd i = .absent avail) (hj : j < pteCount) : ownFrame? pd (i * pteCount + j) = none := by
  have div : (i * pteCount + j) / pteCount = i := by
    rw [Nat.mul_comm, Nat.mul_add_div (by decide), Nat.div_eq_of_lt hj, Nat.add_zero]
  simp [ownFrame?, frameOf, stateOf, div, h, PageState.frame?]

/-- What a PTE says about its page. -/
theorem ownFrame?_present {pd : PageDir} {i j : Nat} {rw : Access} {us g : Bool} {pt : PageTable}
    (h : pd i = .present rw us g pt) (hi : i < pdeCount) (hj : j < pteCount) :
    ownFrame? pd (i * pteCount + j) =
      if (pt j).p ∧ kernelPageCount ≤ i * pteCount + j then
        (some ((pt j).pageAddr * pageSize)).filter (· ≠ zeroFrame)
      else none := by
  have div : (i * pteCount + j) / pteCount = i := by
    rw [Nat.mul_comm, Nat.mul_add_div (by decide), Nat.div_eq_of_lt hj, Nat.add_zero]
  have mod : (i * pteCount + j) % pteCount = j := by
    rw [Nat.mul_comm, Nat.mul_add_mod, Nat.mod_eq_of_lt hj]
  by_cases low : kernelPageCount ≤ i * pteCount + j
  · rw [ownFrame?, if_pos (userPage_of_table hi hj low)]
    cases present : (pt j).p <;>
      simp [frameOf, stateOf, div, mod, h, Pte.state, present, PageState.frame?, low]
  · have kernel : ¬ UserPage (i * pteCount + j) := fun user => low user.1
    rw [ownFrame?, if_neg kernel, if_neg fun given => low given.2]

theorem freeTable_eq {pd : PageDir} {i : Nat} {rw : Access} {us g : Bool} {pt : PageTable}
    (h : pd i = .present rw us g pt) (hi : i < pdeCount) {js : List Nat}
    (bound : ∀ j ∈ js, j < pteCount) (vm : VmState) :
    freeTable i pt js vm = freeAll (js.filterMap fun j => ownFrame? pd (i * pteCount + j)) vm := by
  induction js generalizing vm with
  | nil => rfl
  | cons j js ih =>
      have own := ownFrame?_present h hi (bound j List.mem_cons_self)
      have rest := ih fun j' hj' => bound j' (List.mem_cons_of_mem j hj')
      unfold freeTable
      by_cases given : (pt j).p ∧ kernelPageCount ≤ i * pteCount + j
      · rw [if_pos given] at own ⊢
        rw [rest]
        by_cases zero : (pt j).pageAddr * pageSize = zeroFrame
        · have none' : ownFrame? pd (i * pteCount + j) = none := by
            rw [own]
            simp [zero]
          simp only [List.filterMap_cons, none', zero, freeFrame_zeroFrame]
        · have some' : ownFrame? pd (i * pteCount + j) = some ((pt j).pageAddr * pageSize) := by
            rw [own]
            simp [zero]
          simp only [List.filterMap_cons, some', freeAll]
      · rw [if_neg given] at own ⊢
        simp only [List.filterMap_cons, own, rest]

theorem freeTables_eq {pd : PageDir} {is : List Nat} (bound : ∀ i ∈ is, i < pdeCount)
    (vm : VmState) : freeTables pd is vm = freeAll (is.flatMap fun i =>
      (List.range pteCount).filterMap fun j => ownFrame? pd (i * pteCount + j)) vm := by
  induction is generalizing vm with
  | nil => rfl
  | cons i is ih =>
      have rest := ih fun i' hi' => bound i' (List.mem_cons_of_mem i hi')
      have entries : ∀ j ∈ List.range pteCount, j < pteCount := fun j => List.mem_range.mp
      unfold freeTables
      rw [List.flatMap_cons, freeAll_append]
      generalize List.range pteCount = js at rest entries
      cases h : pd i with
      | absent avail =>
          have none : (js.filterMap fun j => ownFrame? pd (i * pteCount + j)) = [] :=
            List.filterMap_eq_nil_iff.mpr fun j hj => ownFrame?_absent h (entries j hj)
          rw [none]
          exact rest vm
      | present rw us g pt =>
          dsimp only
          rw [rest, freeTable_eq h (bound i List.mem_cons_self) entries]

/-- Exactly the frames whose node was granted are in the pool afterwards. -/
theorem mem_freeAll {fs : List Nat} (nodup : fs.Nodup) {vm : VmState}
    (own : ∀ f ∈ fs, pageSize ∣ f ∧ userPageStart ≤ f ∧ f ≠ zeroFrame ∧ f ∉ vm.allocList)
    (f : Nat) : f ∈ (freeAll fs vm).allocList ↔
      f ∈ vm.allocList ∨ ∃ k, fs[k]? = some f ∧ vm.oracle k = true := by
  induction fs generalizing vm with
  | nil => simp [freeAll]
  | cons g gs ih =>
      obtain ⟨fresh, nodup⟩ := List.nodup_cons.mp nodup
      obtain ⟨⟨n, whole⟩, user, nz, spare⟩ := own g List.mem_cons_self
      rw [Nat.mul_comm] at whole
      rw [whole] at user nz spare
      obtain ⟨flag, shifted, lost⟩ := freeFrame_absent user nz spare
      -- the first frame takes one outcome and is in the pool if that was a node
      have first : ∀ h, h ∈ (freeFrame vm g).2.allocList ↔
          h ∈ vm.allocList ∨ vm.oracle 0 = true ∧ h = g := by
        intro h
        rw [whole]
        cases got : vm.oracle 0 with
        | false => simp [lost got]
        | true =>
            rw [mem_freeFrame (flag.trans got) user]
            refine or_congr_right ⟨fun h => ⟨rfl, h.1⟩, fun h => ⟨h.2, ?_⟩⟩
            rw [h.2]
            exact nz
      have rest : ∀ h ∈ gs, pageSize ∣ h ∧ userPageStart ≤ h ∧ h ≠ zeroFrame ∧
          h ∉ (freeFrame vm g).2.allocList := by
        intro h mem
        obtain ⟨aligned, user, nz, spare⟩ := own h (List.mem_cons_of_mem g mem)
        refine ⟨aligned, user, nz, fun there => ?_⟩
        rcases (first h).mp there with there | ⟨-, rfl⟩
        · exact spare there
        · exact fresh mem
      rw [freeAll, ih nodup rest, first, whole, shifted, or_assoc]
      refine or_congr_right ⟨?_, ?_⟩
      · rintro (⟨got, rfl⟩ | ⟨k, at', got⟩)
        · exact ⟨0, rfl, got⟩
        · exact ⟨k + 1, at', got⟩
      · rintro ⟨k, at', got⟩
        cases k with
        | zero => exact .inl ⟨got, (Option.some.inj at').symm⟩
        | succ k => exact .inr ⟨k, at', got⟩

/-! ### The frames of a directory -/

theorem mem_ownFrames {pd : PageDir} {f : Nat} :
    f ∈ ownFrames pd ↔ ∃ page, ownFrame? pd page = some f := by
  unfold ownFrames
  simp only [List.mem_flatMap, List.mem_filterMap, List.mem_range]
  constructor
  · rintro ⟨i, -, j, -, own⟩
    exact ⟨_, own⟩
  · rintro ⟨page, own⟩
    have user : UserPage page := by
      by_contra kernel
      rw [ownFrame?, if_neg kernel] at own
      cases own
    refine ⟨page / pteCount, ?_, page % pteCount, Nat.mod_lt _ (by decide), ?_⟩
    · have := user.2
      simp only [pdeCount, pteCount, pageSize, virtualAddrEnd] at this ⊢
      omega
    · rwa [Nat.div_add_mod']

theorem ownFrame?_eq {vm : VmState} {d : Nat} {pd : PageDir} (dir : vm.dirs d = some pd)
    {page f : Nat} : ownFrame? pd page = some f ↔ vm.abs.Maps d page f ∧ f ≠ zeroFrame := by
  unfold ownFrame? Spaces.Maps frameOf
  rw [abs_space_some dir]
  by_cases user : UserPage page
  · simp [user, Option.filter_eq_some_iff]
  · simp [user]

variable {vm : VmState}

theorem nodup_ownFrames (wf : vm.abs.Wf) {d : Nat} {pd : PageDir} (dir : vm.dirs d = some pd) :
    (ownFrames pd).Nodup := by
  have injective : ∀ page page' f, ownFrame? pd page = some f → ownFrame? pd page' = some f →
      page = page' := by
    intro page page' f own own'
    obtain ⟨maps, nz⟩ := (ownFrame?_eq dir).mp own
    exact (wf.injective d d page page' f maps ((ownFrame?_eq dir).mp own').1 nz).2
  have entries : ∀ j ∈ List.range pteCount, j < pteCount := fun j => List.mem_range.mp
  have range : (List.range pteCount).Nodup := List.nodup_range
  unfold ownFrames
  generalize List.range pteCount = js at entries range
  refine List.nodup_flatMap.mpr ⟨fun i _ => ?_, ?_⟩
  · refine range.filterMap fun j j' f own own' => ?_
    have := injective _ _ f own own'
    omega
  · refine List.nodup_range.imp fun {i i'} ne => ?_
    simp only [Function.onFun, List.disjoint_left, List.mem_filterMap, not_exists, not_and]
    rintro f ⟨j, hj, own⟩ j' hj' own'
    have same := injective _ _ f own own'
    have := entries j hj
    have := entries j' hj'
    refine ne ?_
    simp only [pteCount, pageSize] at *
    omega

/-! ### What one operation does to the frames -/

theorem held_iff {f : Nat} : vm.Held f ↔ f ∈ vm.allocList ∨ ∃ d page, vm.abs.Maps d page f := by
  refine or_congr_right ⟨?_, ?_⟩
  · rintro ⟨d, page, holds⟩
    exact ⟨d, page, maps_of_holds holds⟩
  · rintro ⟨d, page, user, space, hd, frame⟩
    obtain ⟨pd, dir, rfl⟩ := dir_of_space hd
    exact ⟨d, page, user, pd, dir, frame⟩

theorem maps_other {vm vm' : VmState} {e page f : Nat} (same : vm'.dirs e = vm.dirs e) :
    vm'.abs.Maps e page f ↔ vm.abs.Maps e page f := by
  simp only [Spaces.Maps, VmState.abs, same]

/-- Frames that move between the pool and one directory stay held. -/
theorem Within.held {d : Nat} {vm₀ vm : VmState} (h : Within d vm₀ vm) {f : Nat}
    (nz : f ≠ zeroFrame) : vm.Held f ↔ vm₀.Held f := by
  have moved := h.frames f nz
  unfold VmState.Has at moved
  have split : ∀ vm : VmState, (∃ e page, vm.abs.Maps e page f) ↔
      (∃ page, vm.abs.Maps d page f) ∨ ∃ e, e ≠ d ∧ ∃ page, vm.abs.Maps e page f := by
    intro vm
    constructor
    · rintro ⟨e, page, maps⟩
      by_cases here : e = d
      · exact .inl ⟨page, here ▸ maps⟩
      · exact .inr ⟨e, here, page, maps⟩
    · rintro (⟨page, maps⟩ | ⟨e, -, page, maps⟩)
      · exact ⟨d, page, maps⟩
      · exact ⟨e, page, maps⟩
  have others : (∃ e, e ≠ d ∧ ∃ page, vm.abs.Maps e page f) ↔
      ∃ e, e ≠ d ∧ ∃ page, vm₀.abs.Maps e page f :=
    exists_congr fun e => and_congr_right fun ne =>
      exists_congr fun page => maps_other (h.dirs e ne)
  rw [held_iff, held_iff, split, split, ← or_assoc, ← or_assoc, moved, others]

/-- A new directory holds no frame. -/
theorem Constructed.held {d : Nat} {vm₀ vm : VmState} (h : Constructed d vm₀ vm) {f : Nat} :
    vm.Held f ↔ vm₀.Held f := by
  rw [held_iff, held_iff, h.pool]
  refine or_congr_right (exists_congr fun e => exists_congr fun page => ?_)
  by_cases here : e = d
  · rw [here]
    refine ⟨fun maps => absurd maps (h.empty page f), ?_⟩
    rintro ⟨-, space, hd, -⟩
    rw [abs_space_none h.absent] at hd
    cases hd
  · exact maps_other (h.others here)

/-- A frame that one page gives back: it is in the pool if `got` says so, and the other
pages keep theirs. -/
theorem held_given {vm vm' : VmState} (wf : vm.abs.Wf) {d page f : Nat} {got : Prop}
    (nz : f ≠ zeroFrame)
    (pool : f ∈ vm'.allocList ↔ f ∈ vm.allocList ∨ got ∧ vm.abs.Maps d page f)
    (maps : ∀ e q, vm'.abs.Maps e q f ↔ vm.abs.Maps e q f ∧ ¬ (e = d ∧ q = page)) :
    vm'.Held f ↔ vm.Held f ∧ (vm.abs.Maps d page f → got) := by
  rw [held_iff, held_iff, pool]
  simp only [maps]
  constructor
  · rintro ((there | ⟨yes, here⟩) | ⟨e, q, there, other⟩)
    · exact ⟨.inl there, fun here => absurd there (wf.unmapped d page f here nz)⟩
    · exact ⟨.inr ⟨d, page, here⟩, fun _ => yes⟩
    · exact ⟨.inr ⟨e, q, there⟩, fun here => absurd (wf.injective e d q page f there here nz) other⟩
  · rintro ⟨there | ⟨e, q, there⟩, yes⟩
    · exact .inl (.inl there)
    · by_cases same : e = d ∧ q = page
      · obtain ⟨rfl, rfl⟩ := same
        exact .inl (.inr ⟨yes there, there⟩)
      · exact .inr ⟨e, q, there, same⟩

/-- What `unmap_frame` does to the frames: a frame that was mapped there is in the pool
if its node was granted, and lost otherwise. -/
theorem held_unmapFrame (wf : vm.abs.Wf) (d v : Nat) {f : Nat} (nz : f ≠ zeroFrame) :
    (unmapFrame vm d v).2.Held f ↔
      vm.Held f ∧ (vm.abs.Maps d (pageOf v) f → vm.oracle 0 = true) := by
  rcases unmapFrame_spec vm d v with ⟨fails, abs⟩ | ⟨space, pte, -, -, hd, hp, state, -⟩
  · have none : ¬ vm.abs.Maps d (pageOf v) f := by
      rintro ⟨user, space, hd, frame⟩
      cases state : space (pageOf v) with
      | unmapped avail =>
          rw [state] at frame
          cases frame
      | mapped pte =>
          obtain ⟨vm', -, -, -, -, -, -, eq⟩ := unmapFrame_mapped hd user state
          rw [eq] at fails
          cases fails
    have pool : (unmapFrame vm d v).2.allocList = vm.allocList := congrArg Spaces.free abs
    rw [held_iff, held_iff, pool, abs]
    simp [none]
  have frame : ∀ g, vm.abs.Maps d (pageOf v) g ↔ g = pte.pageAddr * pageSize := by
    intro g
    simp [Spaces.Maps, hp, hd, state, PageState.frame?, eq_comm]
  obtain ⟨vm', pool, -, -, abs, -, -, eq⟩ := unmapFrame_mapped hd hp state
  refine held_given wf nz ?_ fun e q => ?_
  · rw [frame]
    by_cases zero : pte.pageAddr * pageSize = zeroFrame
    · rw [eq, zero, freeFrame_zeroFrame, pool]
      simp [nz]
    · exact (unmapFrame_pool wf hd hp state zero).2 f
  · by_cases here : e = d
    · subst here
      have space' : (unmapFrame vm e v).2.abs.space = Function.update vm.abs.space e
          (some (Function.update space (pageOf v) (.unmapped .available))) := by
        rw [eq, freeFrame_space, abs]
        rfl
      rw [maps_of_update hd hp space']
      by_cases page : q = pageOf v
      · simp [page, PageState.frame?]
      · simp [page]
    · rw [maps_other (unmapFrame_dirs vm v here)]
      simp [here]

/-- What `destruct_page_dir` does to the frames: those of its pages are in the pool as
far as nodes were granted. -/
theorem held_destructPageDir (wf : vm.abs.Wf) {d : Nat} {pd : PageDir} (dir : vm.dirs d = some pd)
    {f : Nat} (nz : f ≠ zeroFrame) : (destructPageDir vm d).Held f ↔
      vm.Held f ∧ ∀ k, (ownFrames pd)[k]? = some f → vm.oracle k = true := by
  have nodup := nodup_ownFrames wf dir
  have own : ∀ g, g ∈ ownFrames pd ↔ ∃ page, vm.abs.Maps d page g ∧ g ≠ zeroFrame := fun g =>
    mem_ownFrames.trans (exists_congr fun page => ownFrame?_eq dir)
  have pool : f ∈ (destructPageDir vm d).allocList ↔
      f ∈ vm.allocList ∨ ∃ k, (ownFrames pd)[k]? = some f ∧ vm.oracle k = true := by
    have freed : (destructPageDir vm d).allocList = (freeAll (ownFrames pd) vm).allocList := by
      have tables : ∀ i ∈ List.range pdeCount, i < pdeCount := fun i => List.mem_range.mp
      unfold destructPageDir ownFrames
      rw [dir]
      dsimp only
      generalize List.range pdeCount = is at tables
      exact congrArg VmState.allocList (freeTables_eq tables vm)
    rw [freed]
    refine mem_freeAll nodup (fun g mem => ?_) f
    obtain ⟨page, maps, nz⟩ := (own g).mp mem
    refine ⟨?_, wf.user d page g maps, nz, wf.unmapped d page g maps nz⟩
    obtain ⟨-, space, -, frame⟩ := maps
    cases state : space page with
    | unmapped avail =>
        rw [state] at frame
        cases frame
    | mapped pte =>
        rw [state, PageState.frame?, Option.some.injEq] at frame
        exact ⟨pte.pageAddr, by rw [← frame, Nat.mul_comm]⟩
  have dirs := destructPageDir_dirs vm d
  have maps : ∀ e q, (destructPageDir vm d).abs.Maps e q f ↔ e ≠ d ∧ vm.abs.Maps e q f := by
    intro e q
    by_cases here : e = d
    · subst here
      have gone : (destructPageDir vm e).abs.space e = none :=
        abs_space_none (by rw [dirs, Function.update_self])
      simp [Spaces.Maps, gone]
    · have same : (destructPageDir vm d).dirs e = vm.dirs e := by
        rw [dirs, Function.update_of_ne here]
      exact ⟨fun there => ⟨here, (maps_other same).mp there⟩, fun there => (maps_other same).mpr there.2⟩
  rw [held_iff, held_iff, pool]
  simp only [maps]
  clear pool
  generalize ownFrames pd = fs at nodup own
  constructor
  · rintro ((there | ⟨k, at', yes⟩) | ⟨e, q, other, there⟩)
    · refine ⟨.inl there, fun k at' => ?_⟩
      obtain ⟨page, here, -⟩ := (own f).mp (List.mem_of_getElem? at')
      exact absurd there (wf.unmapped d page f here nz)
    · obtain ⟨page, here, -⟩ := (own f).mp (List.mem_of_getElem? at')
      refine ⟨.inr ⟨d, page, here⟩, fun k' at'' => ?_⟩
      obtain ⟨lt, -⟩ := List.getElem?_eq_some_iff.mp at'
      rwa [← (List.getElem?_inj lt nodup).mp (at'.trans at''.symm)]
    · refine ⟨.inr ⟨e, q, there⟩, fun k at' => ?_⟩
      obtain ⟨page, here, -⟩ := (own f).mp (List.mem_of_getElem? at')
      exact absurd (wf.injective e d q page f there here nz).1 other
  · rintro ⟨there | ⟨e, q, there⟩, yes⟩
    · exact .inl (.inl there)
    · by_cases here : e = d
      · subst here
        obtain ⟨k, at'⟩ := List.mem_iff_getElem?.mp ((own f).mpr ⟨q, there, nz⟩)
        exact .inl (.inr ⟨k, at', yes k at'⟩)
      · exact .inr ⟨e, q, here, there⟩

/-! ### Runs -/

/-- Every frame that the pool had at the start is still held. -/
def VmState.Keeps (pool : List Nat) (vm : VmState) : Prop := ∀ f ∈ pool, vm.Held f

/-- No frame but those of the pool, and the zero frame, is ever held. -/
structure Known (pool : List Nat) (vm : VmState) : Prop where
  wf : vm.abs.Wf
  known : ∀ f, f ≠ zeroFrame → vm.Held f → f ∈ pool

/-- The frames an operation loses. -/
theorem held_apply (wf : vm.abs.Wf) (op : VmOp) {f : Nat} (nz : f ≠ zeroFrame) :
    ((op.apply vm).Held f → vm.Held f) ∧ (op.Granted vm → vm.Held f → (op.apply vm).Held f) := by
  have within : ∀ {d : Nat} {vm' : VmState}, Within d vm vm' →
      (vm'.Held f → vm.Held f) ∧ (op.Granted vm → vm.Held f → vm'.Held f) :=
    fun h => ⟨(h.held nz).mp, fun _ => (h.held nz).mpr⟩
  cases op with
  | constructPageDir =>
      rcases constructPageDir_cases wf with ⟨-, dirs, abs⟩ | ⟨-, made⟩
      · exact within (Within.of_abs wf abs fun e _ => congrFun dirs e : Within 0 vm _)
      · exact ⟨made.held.mp, fun _ => made.held.mpr⟩
  | mapNewFrame d v => exact within (within_mapNewFrame wf d v)
  | mapZeroFrame d v => exact within (within_mapZeroFrame wf d v)
  | setAccess d v n => exact within (within_setAccess wf d v n)
  | setAvailability d v n => exact within (within_setAvailability wf d v n)
  | unmapFrame d v =>
      have given := held_unmapFrame wf d v nz
      refine ⟨fun held => (given.mp held).1, fun granted held => given.mpr ⟨held, fun maps => ?_⟩⟩
      obtain ⟨user, space, hd, frame⟩ := maps
      obtain ⟨pd, dir, rfl⟩ := dir_of_space hd
      exact granted f ⟨user, pd, dir, frame⟩ nz
  | destructPageDir d =>
      cases dir : vm.dirs d with
      | none =>
          have idle : VmOp.apply vm (.destructPageDir d) = vm := by
            simp only [VmOp.apply, destructPageDir, dir]
          rw [idle]
          exact ⟨id, fun _ => id⟩
      | some pd =>
          have given := held_destructPageDir wf dir nz
          refine ⟨fun held => (given.mp held).1, fun granted held => given.mpr ⟨held, ?_⟩⟩
          intro k at'
          obtain ⟨lt, -⟩ := List.getElem?_eq_some_iff.mp at'
          exact granted pd dir k lt

/-- An operation that keeps every frame was granted its nodes. -/
theorem granted_of_keeps {pool : List Nat} (known : Known pool vm) {op : VmOp}
    (keeps : (op.apply vm).Keeps pool) : op.Granted vm := by
  have wf := known.wf
  have here : ∀ {d page f}, vm.abs.Maps d page f → f ≠ zeroFrame → f ∈ pool :=
    fun maps nz => known.known _ nz (held_iff.mpr (.inr ⟨_, _, maps⟩))
  cases op with
  | unmapFrame d v =>
      intro f holds nz
      have maps := maps_of_holds holds
      exact ((held_unmapFrame wf d v nz).mp (keeps f (here maps nz))).2 maps
  | destructPageDir d =>
      intro pd dir k lt
      have at' := List.getElem?_eq_getElem lt
      obtain ⟨page, own⟩ := mem_ownFrames.mp (List.getElem_mem lt)
      obtain ⟨maps, nz⟩ := (ownFrame?_eq dir).mp own
      exact ((held_destructPageDir wf dir nz).mp (keeps _ (here maps nz))).2 k at'
  | _ => trivial

theorem Known.apply {pool : List Nat} (h : Known pool vm) (op : VmOp) : Known pool (op.apply vm) :=
  ⟨h.wf.apply op, fun f nz held => h.known f nz ((held_apply h.wf op nz).1 held)⟩

/-- After `init_page_dir_manager` the pool holds every frame. -/
theorem known_boot {physFrames : Nat} (fits : physFrames ≤ virtualAddrEnd / pageSize)
    {oracle : Nat → Bool} (ok : (initPageDirManager physFrames (.boot oracle)).1 = true) :
    Known (initPageDirManager physFrames (.boot oracle)).2.allocList
      (initPageDirManager physFrames (.boot oracle)).2 := by
  refine ⟨wf_boot fits ok, fun f _ held => ?_⟩
  rcases held_iff.mp held with there | ⟨d, page, -, space, hd, -⟩
  · exact there
  · obtain ⟨n, -, abs⟩ := abs_boot fits ok
    rw [abs] at hd
    cases hd

/-- Every frame that `init_allocator` put into the pool stays in the pool or mapped by a
user page of a live directory, as long as every node that `free_frame` needs is granted;
the first one that is not loses a frame. -/
theorem frames_kept_iff {physFrames : Nat} (fits : physFrames ≤ virtualAddrEnd / pageSize)
    {oracle : Nat → Bool} (ok : (initPageDirManager physFrames (.boot oracle)).1 = true)
    (ops : List VmOp) :
    Run.Along VmOp.apply (VmState.Keeps (initPageDirManager physFrames (.boot oracle)).2.allocList)
        (initPageDirManager physFrames (.boot oracle)).2 ops ↔
      Run.StepsMeet VmOp.apply VmOp.Granted (initPageDirManager physFrames (.boot oracle)).2 ops := by
  have start := known_boot fits ok
  generalize (initPageDirManager physFrames (.boot oracle)).2 = vm at start
  constructor
  · intro keeps
    have along := keeps.and (Run.along_of_invariant (fun _ op h => h.apply op) start ops)
    exact Run.stepsMeet_of_along (fun _ _ h h' => granted_of_keeps h.1 h'.2) along
  · refine Run.along_of_stepsMeet (I := fun vm' => Known vm.allocList vm' ∧ vm'.Keeps vm.allocList)
      (fun _ h => h.2) (fun vm' op h granted => ⟨h.1.apply op, fun f mem => ?_⟩)
      ⟨start, fun f mem => .inl mem⟩
    exact (held_apply h.1.wf op (start.wf.pool f mem).2.2).2 granted (h.2 f mem)

/-- A page is mapped and unmapped while allocation succeeds. -/
theorem frames_kept_iff_all_granted :
    Run.Along VmOp.apply (VmState.Keeps (initPageDirManager 4099 (.boot fun _ => true)).2.allocList)
      (initPageDirManager 4099 (.boot fun _ => true)).2
      [.constructPageDir, .mapNewFrame 0 userMemStart, .unmapFrame 0 userMemStart] :=
  (frames_kept_iff (by decide) rfl _).mpr ⟨trivial, trivial, fun _ _ _ => rfl, trivial⟩

/-- There is no node for the frame of the only page. -/
theorem frames_lost_one_page :
    (initPageDirManager 4099 (.boot fun n => n ≠ 8)).1 = true ∧
      ¬ (Run.run VmOp.apply (initPageDirManager 4099 (.boot fun n => n ≠ 8)).2
        [.constructPageDir, .mapNewFrame 0 userMemStart, .unmapFrame 0 userMemStart]).Keeps
          (initPageDirManager 4099 (.boot fun n => n ≠ 8)).2.allocList := by
  refine ⟨rfl, fun keeps => ?_⟩
  have start : Known _ (initPageDirManager 4099 (.boot fun n => n ≠ 8)).2 :=
    known_boot (by decide) rfl
  have known := (start.apply .constructPageDir).apply (.mapNewFrame 0 userMemStart)
  have granted : VmOp.Granted _ (.unmapFrame 0 userMemStart) := granted_of_keeps known keeps
  cases granted (userPageStart + pageSize) ⟨by decide, _, rfl, rfl⟩ (by decide)

end OsKernel.Vm
