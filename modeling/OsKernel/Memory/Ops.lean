/-
What each operation of the page directory manager does to the bytes that the
directories show.

`Mem.state` is the state of one page. An operation on a page either fails and
changes nothing or puts that page into a new state (`PageSet`); the bytes of the
page follow from the state (`byteAt_unmapped`, `byteAt_zero`), all others are as
before. Clearing and copying a page leave the states alone.
-/

import OsKernel.Memory.Basic

namespace OsKernel.Memory

open OsKernel.Vm

/-- The state of a page of a live directory. -/
def Mem.state (m : Mem) (d page : Nat) : Option PageState :=
  (m.vm.abs.space d).map (· page)

theorem state_of_space {m : Mem} {d : Nat} {space : Nat → PageState}
    (hd : m.vm.abs.space d = some space) (page : Nat) : m.state d page = some (space page) := by
  simp [Mem.state, hd]

theorem byteAt_of_state {m : Mem} {d w : Nat} {state : PageState}
    (h : m.state d (pageOf w) = some state) :
    m.byteAt d w = byteOf m.phys (w % pageSize) state := by
  obtain ⟨space, hd, hs⟩ := Option.map_eq_some_iff.mp h
  rw [byteAt_of_space hd, hs]

theorem byteAt_unmapped {m : Mem} {d w : Nat} {avail : Availability}
    (h : m.state d (pageOf w) = some (.unmapped avail)) : m.byteAt d w = 0 :=
  byteAt_of_state h

theorem byteAt_zero {m : Mem} (inv : m.Inv) {d w : Nat} {pte : Pte}
    (h : m.state d (pageOf w) = some (.mapped pte)) (zero : pte.pageAddr * pageSize = zeroFrame) :
    m.byteAt d w = 0 := by
  rw [byteAt_of_state h, byteOf, zero]
  exact inv.zeroClean _ (off_lt w)

/-- The page is mapped to a frame of its own. -/
def Mem.Owned (m : Mem) (d page : Nat) : Prop :=
  ∃ pte, m.state d page = some (.mapped pte) ∧ pte.pageAddr * pageSize ≠ zeroFrame

/-- The page is mapped to the zero frame. -/
def Mem.Zero (m : Mem) (d page : Nat) : Prop :=
  ∃ pte, m.state d page = some (.mapped pte) ∧ pte.pageAddr * pageSize = zeroFrame

/-- One page of one directory was put into a new state. -/
structure PageSet (d page : Nat) (state : PageState) (m m' : Mem) : Prop where
  confined : Confined d m m'
  user : UserPage page
  now : m'.state d page = some state
  rest : ∀ q, q ≠ page → m'.state d q = m.state d q
  bytes : SameBut d page m m'
  phys : m'.phys = m.phys

theorem PageSet.of_setPage {m : Mem} (inv : m.Inv) {vm : VmState} {d page : Nat}
    {space : Nat → PageState} {state : PageState} (hd : m.vm.abs.space d = some space)
    (hp : UserPage page)
    (abs : vm.abs.space = Function.update m.vm.abs.space d
      (some (Function.update space page state)))
    (next : vm.abs.next = m.vm.abs.next) (wf : vm.abs.Wf)
    (ro : ∀ pte, state = .mapped pte → pte.pageAddr * pageSize = zeroFrame → pte.rw = .readOnly) :
    PageSet d page state m (m.withVm vm) := by
  have others : ∀ e, e ≠ d → vm.abs.space e = m.vm.abs.space e := fun e ne => by
    rw [abs, Function.update_of_ne ne]
  have here : vm.abs.space d = some (Function.update space page state) := by
    rw [abs, Function.update_self]
  have here' : (m.withVm vm).vm.abs.space d = some (Function.update space page state) := here
  refine ⟨⟨⟨wf, ?_, inv.zeroClean⟩, Nat.le_of_eq next.symm, others,
    fun e w ne _ => byteAt_withVm (others e ne) w⟩, hp, ?_, ?_, ?_, rfl⟩
  · intro e space' q pte he hq hs zero
    by_cases same : e = d
    · subst same
      rw [here', Option.some.injEq] at he
      subst he
      by_cases hqp : q = page
      · subst hqp
        exact ro pte (by simpa using hs) zero
      · rw [Function.update_of_ne hqp] at hs
        exact inv.zeroReadOnly e space q pte hd hq hs zero
    · exact inv.zeroReadOnly e space' q pte ((others e same).symm.trans he) hq hs zero
  · rw [state_of_space here', Function.update_self]
  · intro q ne
    rw [state_of_space here', Function.update_of_ne ne, state_of_space hd]
  · intro w _ ne
    rw [byteAt_of_space here', byteAt_of_space hd, Function.update_of_ne ne]
    rfl

/-- An operation on one page that failed. -/
structure Unchanged (m m' : Mem) : Prop where
  phys : m'.phys = m.phys
  abs : m'.vm.abs = m.vm.abs

theorem Unchanged.state {m m' : Mem} (h : Unchanged m m') (d page : Nat) :
    m'.state d page = m.state d page := by
  rw [Mem.state, Mem.state, h.abs]

theorem Unchanged.byteAt {m m' : Mem} (h : Unchanged m m') (d w : Nat) :
    m'.byteAt d w = m.byteAt d w := by
  rw [Mem.byteAt, Mem.byteAt, h.abs, h.phys]

theorem Unchanged.confined {m m' : Mem} (h : Unchanged m m') (inv : m.Inv) (d : Nat) :
    Confined d m m' :=
  ⟨⟨h.abs ▸ inv.wf, fun e space page pte he => inv.zeroReadOnly e space page pte (h.abs ▸ he),
      h.phys ▸ inv.zeroClean⟩,
    Nat.le_of_eq (congrArg Spaces.next h.abs).symm, fun e _ => by rw [h.abs], fun e w _ _ => h.byteAt e w⟩

/-! ### The operations on one page -/

variable {m : Mem} (inv : m.Inv) (d v : Nat)

include inv

theorem mapNewFrame_mem :
    ((mapNewFrame m.vm d v).1 = false ∧ Unchanged m (m.withVm (mapNewFrame m.vm d v).2)) ∨
      ∃ avail pte, (mapNewFrame m.vm d v).1 = true ∧
        m.state d (pageOf v) = some (.unmapped avail) ∧ pte.pageAddr * pageSize ≠ zeroFrame ∧
        PageSet d (pageOf v) (.mapped pte) m (m.withVm (mapNewFrame m.vm d v).2) := by
  have wf := inv.wf.mapNewFrame d v
  rcases mapNewFrame_spec m.vm d v with ⟨fails, abs⟩ |
    ⟨space, frame, rest, avail, ok, hd, hp, state, free, abs⟩
  · exact .inl ⟨fails, rfl, abs⟩
  obtain ⟨aligned, -, nz⟩ := inv.wf.pool frame (free ▸ List.mem_cons_self)
  have frame_eq : (newFramePte frame).pageAddr * pageSize = frame := by
    simp [newFramePte, Nat.div_mul_cancel aligned]
  refine .inr ⟨avail, newFramePte frame, ok, by rw [state_of_space hd, state],
    by rwa [frame_eq], PageSet.of_setPage inv hd hp (by rw [abs]; rfl) (by rw [abs]; rfl) wf ?_⟩
  rintro pte ⟨⟩ zero
  exact absurd (frame_eq.symm.trans zero) nz

theorem mapZeroFrame_mem :
    ((mapZeroFrame m.vm d v).1 = false ∧ Unchanged m (m.withVm (mapZeroFrame m.vm d v).2)) ∨
      ∃ avail pte, (mapZeroFrame m.vm d v).1 = true ∧
        m.state d (pageOf v) = some (.unmapped avail) ∧ pte.pageAddr * pageSize = zeroFrame ∧
        PageSet d (pageOf v) (.mapped pte) m (m.withVm (mapZeroFrame m.vm d v).2) := by
  have wf := inv.wf.mapZeroFrame d v
  rcases mapZeroFrame_spec m.vm d v with ⟨fails, abs⟩ | ⟨space, avail, ok, hd, hp, state, abs⟩
  · exact .inl ⟨fails, rfl, abs⟩
  refine .inr ⟨avail, zeroFramePte, ok, by rw [state_of_space hd, state], rfl,
    PageSet.of_setPage inv hd hp (by rw [abs]; rfl) (by rw [abs]; rfl) wf ?_⟩
  rintro pte ⟨⟩ -
  rfl

theorem unmapFrame_mem :
    ((unmapFrame m.vm d v).1 = false ∧ Unchanged m (m.withVm (unmapFrame m.vm d v).2)) ∨
      ∃ pte, (unmapFrame m.vm d v).1 = true ∧ m.state d (pageOf v) = some (.mapped pte) ∧
        PageSet d (pageOf v) (.unmapped .available) m (m.withVm (unmapFrame m.vm d v).2) := by
  have wf := inv.wf.unmapFrame d v
  rcases unmapFrame_spec m.vm d v with ⟨fails, abs⟩ |
    ⟨space, pte, vm', ok, hd, hp, state, abs, eq⟩
  · exact .inl ⟨fails, rfl, abs⟩
  refine .inr ⟨pte, ok, by rw [state_of_space hd, state],
    PageSet.of_setPage inv hd hp ?_ ?_ wf (by simp)⟩
  · rw [eq, freeFrame_space, abs]
    rfl
  · rw [eq, freeFrame_next, abs]
    rfl

/-- The read/write bit of the zero frame may only be cleared. -/
theorem setAccess_mem (access : Nat) (safe : access = 0 ∨ ¬ m.Zero d (pageOf v)) :
    ((setAccess m.vm d v access).1 = false ∧
        Unchanged m (m.withVm (setAccess m.vm d v access).2)) ∨
      ∃ pte rw, (setAccess m.vm d v access).1 = true ∧
        m.state d (pageOf v) = some (.mapped pte) ∧
        PageSet d (pageOf v) (.mapped { pte with rw := rw }) m
          (m.withVm (setAccess m.vm d v access).2) := by
  have wf := inv.wf.setAccess d v access
  rcases setAccess_spec m.vm d v access with ⟨fails, abs⟩ |
    ⟨space, pte, rw, ok, hd, hp, state, bit, abs⟩
  · exact .inl ⟨fails, rfl, abs⟩
  have here : m.state d (pageOf v) = some (.mapped pte) := by rw [state_of_space hd, state]
  refine .inr ⟨pte, rw, ok, here, PageSet.of_setPage inv hd hp (by rw [abs]; rfl) (by rw [abs]; rfl) wf ?_⟩
  rintro pte' ⟨⟩ zero
  rcases safe with rfl | safe
  · simp only [Access.ofNat?, Option.some.injEq] at bit
    exact bit.symm
  · exact absurd ⟨pte, here, zero⟩ safe

theorem setAvailability_mem (availability : Nat) :
    ((setAvailability m.vm d v availability).1 = false ∧
        Unchanged m (m.withVm (setAvailability m.vm d v availability).2)) ∨
      ∃ old avail, (setAvailability m.vm d v availability).1 = true ∧
        Availability.ofNat? availability = some avail ∧
        m.state d (pageOf v) = some (.unmapped old) ∧
        PageSet d (pageOf v) (.unmapped avail) m
          (m.withVm (setAvailability m.vm d v availability).2) := by
  have wf := inv.wf.setAvailability d v availability
  rcases setAvailability_spec m.vm d v availability with ⟨fails, abs⟩ |
    ⟨space, old, avail, ok, hd, hp, state, bits, abs⟩
  · exact .inl ⟨fails, rfl, abs⟩
  exact .inr ⟨old, avail, ok, bits, by rw [state_of_space hd, state],
    PageSet.of_setPage inv hd hp (by rw [abs]; rfl) (by rw [abs]; rfl) wf (by simp)⟩

/-! ### Contents -/

omit inv in
theorem frameAt_eq : m.frameAt d v = (m.state d (pageOf v)).bind PageState.frame? := by
  simp only [Mem.frameAt, Mem.state, VmState.abs]
  cases m.vm.dirs d <;> rfl

/-- Clearing a page leaves zeros in it and touches nothing else. -/
theorem clearPage_mem (hp : UserPage (pageOf v)) :
    Confined d m (m.clearPage d v) ∧ (m.clearPage d v).vm = m.vm ∧
      ∀ w, UserAddr w →
        (m.clearPage d v).byteAt d w = if pageOf w = pageOf v then 0 else m.byteAt d w := by
  unfold Mem.clearPage
  rw [frameAt_eq]
  -- where no frame is written, the page shows zeros already
  have idle : (∀ w, pageOf w = pageOf v → m.byteAt d w = 0) → Confined d m m ∧ m.vm = m.vm ∧
      ∀ w, UserAddr w → m.byteAt d w = if pageOf w = pageOf v then 0 else m.byteAt d w := by
    intro zeros
    refine ⟨⟨inv, le_refl _, fun _ _ => rfl, fun _ _ _ _ => rfl⟩, rfl, fun w _ => ?_⟩
    split
    · rename_i page
      exact zeros w page
    · rfl
  cases hs : m.state d (pageOf v) with
  | none =>
      refine idle fun w _ => ?_
      have : m.vm.abs.space d = none := by simpa [Mem.state] using hs
      simp [Mem.byteAt, this]
  | some state =>
      cases state with
      | unmapped avail => exact idle fun w page => byteAt_unmapped (page ▸ hs)
      | mapped pte =>
          obtain ⟨space, hd, state⟩ := Option.map_eq_some_iff.mp hs
          simp only [PageState.frame?, Option.bind_some]
          by_cases zero : pte.pageAddr * pageSize = zeroFrame
          · rw [zero, inv.fill_zero]
            exact idle fun w page => byteAt_zero inv (page ▸ hs) zero
          · obtain ⟨confined, bytes⟩ := inv.fill hd hp state zero fun _ => 0
            exact ⟨confined, rfl, bytes⟩

/-- Copying a page between two directories. -/
theorem copyPage_mem (src : Nat) {dst : Nat} (hp : UserPage (pageOf v)) (owned : m.Owned dst (pageOf v)) :
    Confined dst m (m.copyPage src dst v) ∧ (m.copyPage src dst v).vm = m.vm ∧
      SameBut dst (pageOf v) m (m.copyPage src dst v) ∧
      ∀ {pte}, m.state src (pageOf v) = some (.mapped pte) → ∀ w, UserAddr w →
        pageOf w = pageOf v → (m.copyPage src dst v).byteAt dst w = m.byteAt src w := by
  obtain ⟨pte', hd, nz⟩ := owned
  obtain ⟨space, hspace, state⟩ := Option.map_eq_some_iff.mp hd
  unfold Mem.copyPage
  rw [frameAt_eq, frameAt_eq, hd]
  simp only [PageState.frame?, Option.bind_some]
  cases hf : (m.state src (pageOf v)).bind PageState.frame? with
  | none =>
      refine ⟨⟨inv, le_refl _, fun _ _ => rfl, fun _ _ _ _ => rfl⟩, rfl, fun _ _ _ => rfl, ?_⟩
      intro pte hs
      rw [hs] at hf
      cases hf
  | some frame =>
      obtain ⟨confined, bytes⟩ := inv.fill hspace hp state nz fun i => m.phys (frame + i)
      refine ⟨confined, rfl, fun w user ne => ?_, fun hs w user page => ?_⟩
      · rw [bytes w user, if_neg ne]
      · rw [hs] at hf
        cases hf
        rw [bytes w user, if_pos page, byteAt_of_state (page ▸ hs)]
        rfl

omit inv in
/-- A store in kernel mode into a page that is mapped does not fault. -/
theorem kstore_mapped {d v : Nat} {pte : Pte} (h : m.state d (pageOf v) = some (.mapped pte))
    (b : UInt8) : (m.kstore d v b).isSome := by
  obtain ⟨space, hd, state⟩ := Option.map_eq_some_iff.mp h
  obtain ⟨pd, hpd, rfl⟩ := Option.map_eq_some_iff.mp hd
  simp [Mem.kstore, hpd, ktranslate, frameOf, state, PageState.frame?]

/-- A store in kernel mode into a page that is not mapped to the zero frame, or
of a zero: it is seen at its address, if that is a user address. -/
theorem kstore_mem {b : UInt8} (hv : v < virtualAddrEnd)
    (clean : m.Zero d (pageOf v) → b = 0) {m' : Mem} (h : m.kstore d v b = some m') :
    Confined d m m' ∧ m'.vm = m.vm ∧
      ∀ w, UserAddr w → m'.byteAt d w = if w = v then b else m.byteAt d w := by
  obtain ⟨a, ha, rfl⟩ := Option.map_eq_some_iff.mp h
  obtain ⟨pd, hpd, hk⟩ := Option.bind_eq_some_iff.mp ha
  obtain ⟨pte, state, rfl⟩ := ktranslate_spec hk
  have hd := abs_space_some hpd
  have hs : m.state d (pageOf v) = some (.mapped pte) := by rw [state_of_space hd, state]
  by_cases user : UserPage (pageOf v)
  · by_cases zero : pte.pageAddr * pageSize = zeroFrame
    · have hb := clean ⟨pte, hs, zero⟩
      subst hb
      rw [zero, inv.put_zero (off_lt v)]
      refine ⟨⟨inv, le_refl _, fun _ _ => rfl, fun _ _ _ _ => rfl⟩, rfl, fun w _ => ?_⟩
      split
      · rename_i same
        exact byteAt_zero inv (same ▸ hs) zero
      · rfl
    · obtain ⟨confined, bytes⟩ := inv.put hd ⟨hv, user⟩ state zero b
      exact ⟨confined, rfl, bytes⟩
  · have kernel : pageOf v < kernelPageCount := by
      by_contra h
      exact user ⟨Nat.not_lt.mp h, pageOf_lt v⟩
    have pte_eq := inv.wf.kernel d _ _ hd kernel
    rw [state, PageState.mapped.injEq] at pte_eq
    have low : pte.pageAddr * pageSize + v % pageSize < userPageStart := by
      have := off_lt v
      rw [pte_eq]
      simp only [kernelPte, kernelPageCount, userPageStart, userMemStart, pageSize] at *
      omega
    obtain ⟨confined, bytes⟩ := inv.put_kernel d low b
    refine ⟨confined, rfl, fun w hw => ?_⟩
    rw [if_neg, bytes w hw]
    rintro rfl
    exact user hw.page

/-! ### Directories -/

/-- A new directory shows zeros, and all its user pages are unavailable. -/
theorem constructPageDir_mem :
    ((constructPageDir m.vm).1 = none ∧ Unchanged m (m.withVm (constructPageDir m.vm).2)) ∨
      ((constructPageDir m.vm).1 = some m.vm.nextDir ∧ m.vm.abs.space m.vm.nextDir = none ∧
        Confined m.vm.nextDir m (m.withVm (constructPageDir m.vm).2) ∧
        (constructPageDir m.vm).2.nextDir = m.vm.nextDir + 1 ∧
        ∀ page, UserPage page → (m.withVm (constructPageDir m.vm).2).state m.vm.nextDir page =
          some (.unmapped .unavailable)) := by
  have wf := inv.wf.construct
  rcases constructPageDir_spec m.vm with ⟨fails, abs⟩ | ⟨ok, abs⟩
  · exact .inl ⟨fails, rfl, abs⟩
  have others : ∀ e, e ≠ m.vm.nextDir →
      (constructPageDir m.vm).2.abs.space e = m.vm.abs.space e := by
    intro e ne
    simp only [abs, Function.update_of_ne ne]
  have here : (constructPageDir m.vm).2.abs.space m.vm.nextDir = some (stateOf freshDir) := by
    simp only [abs, Function.update_self]
  have next : (constructPageDir m.vm).2.nextDir = m.vm.nextDir + 1 := congrArg Spaces.next abs
  refine .inr ⟨ok, inv.wf.fresh _ (le_refl _), ⟨⟨wf, ?_, inv.zeroClean⟩, ?_, others,
    fun e w ne _ => byteAt_withVm (others e ne) w⟩, next, ?_⟩
  · intro e space page pte he hp hs zero
    by_cases same : e = m.vm.nextDir
    · subst same
      have : space = stateOf freshDir := Option.some.inj (he.symm.trans here)
      rw [this, stateOf_freshDir, if_neg (Nat.not_lt.mpr hp.1)] at hs
      cases hs
    · exact inv.zeroReadOnly e space page pte ((others e same).symm.trans he) hp hs zero
  · exact Nat.le_trans (Nat.le_succ _) (Nat.le_of_eq next.symm)
  · intro page hp
    have here' : (m.withVm (constructPageDir m.vm).2).vm.abs.space m.vm.nextDir =
        some (stateOf freshDir) := here
    rw [state_of_space here', stateOf_freshDir, if_neg (Nat.not_lt.mpr hp.1)]

omit inv in
theorem freeTable_spaces (i : Nat) (pt : PageTable) (js : List Nat) (vm : VmState) :
    (freeTable i pt js vm).abs.space = vm.abs.space ∧
      (freeTable i pt js vm).abs.next = vm.abs.next := by
  induction js generalizing vm with
  | nil => exact ⟨rfl, rfl⟩
  | cons j js ih =>
      unfold freeTable
      split
      · obtain ⟨space, next⟩ := ih (freeFrame vm ((pt j).pageAddr * pageSize)).2
        exact ⟨space.trans (freeFrame_space vm _), next.trans (freeFrame_next vm _)⟩
      · exact ih vm

omit inv in
theorem freeTables_spaces (pd : PageDir) (is : List Nat) (vm : VmState) :
    (freeTables pd is vm).abs.space = vm.abs.space ∧
      (freeTables pd is vm).abs.next = vm.abs.next := by
  induction is generalizing vm with
  | nil => exact ⟨rfl, rfl⟩
  | cons i is ih =>
      unfold freeTables
      cases pd i with
      | absent avail => exact ih vm
      | present rw us g pt =>
          obtain ⟨space, next⟩ := ih (freeTable i pt (List.range pteCount) vm)
          obtain ⟨space', next'⟩ := freeTable_spaces i pt (List.range pteCount) vm
          exact ⟨space.trans space', next.trans next'⟩

omit inv in
theorem destructPageDir_spaces (vm : VmState) :
    (destructPageDir vm d).abs.space = Function.update vm.abs.space d none ∧
      (destructPageDir vm d).abs.next = vm.abs.next := by
  unfold destructPageDir
  cases hd : vm.dirs d with
  | none => exact ⟨(Function.update_eq_self_iff.mpr (abs_space_none hd).symm).symm, rfl⟩
  | some pd =>
      obtain ⟨space, next⟩ := freeTables_spaces pd (List.range pdeCount) vm
      dsimp only
      generalize freeTables pd (List.range pdeCount) vm = freed at space next ⊢
      rw [setDirs_abs_drop, Spaces.drop, space]
      exact ⟨rfl, next⟩

/-- Destructing a directory leaves all others as they were. -/
theorem destructPageDir_mem : Confined d m (m.withVm (destructPageDir m.vm d)) := by
  obtain ⟨space, next⟩ := destructPageDir_spaces d m.vm
  have others : ∀ e, e ≠ d → (destructPageDir m.vm d).abs.space e = m.vm.abs.space e := by
    intro e ne
    rw [space, Function.update_of_ne ne]
  refine ⟨⟨inv.wf.destruct d, ?_, inv.zeroClean⟩, Nat.le_of_eq next.symm, others,
    fun e w ne _ => byteAt_withVm (others e ne) w⟩
  intro e space' page pte he hp hs zero
  by_cases same : e = d
  · subst same
    have : (destructPageDir m.vm e).abs.space e = none := by rw [space, Function.update_self]
    exact absurd (he.symm.trans this) (by simp)
  · exact inv.zeroReadOnly e space' page pte ((others e same).symm.trans he) hp hs zero

end OsKernel.Memory
