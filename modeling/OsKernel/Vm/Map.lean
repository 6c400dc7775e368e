/-
The page directory manager as a map from pages (`kern/inc/vm.h`).

`VmState.info` is the map: what a directory says about a user page. `observe` is what
callers see of it through `check_user_page`, `get_availability` and `get_access`. Each of
the five operations on a page puts that page at what its header comment states, or
changes no page at all. The comment at `map_zero_frame` only says that it is similar to
`map_new_frame`, which gives read and write access; the zero frame is mapped read-only.
-/

import OsKernel.Vm.Accounting
import OsKernel.Lib.Run

namespace OsKernel.Vm

/-- What the map holds for a user page. -/
inductive PageInfo where
  | unavailable
  | available
  | mapped (frame : Nat) (rw : Access)
deriving DecidableEq

def Availability.info : Availability → PageInfo
  | unavailable => .unavailable
  | available => .available

def PageState.info : PageState → PageInfo
  | .unmapped avail => avail.info
  | .mapped pte => .mapped (pte.pageAddr * pageSize) pte.rw

/-- What a live directory holds for a user page. -/
def VmState.info (vm : VmState) (d page : Nat) : Option PageInfo :=
  if UserPage page then (vm.abs.space d).map fun space => (space page).info else none

/-- What can be seen of a page: whether a frame is the zero frame, but not which it is. -/
inductive Sight where
  | unmapped (avail : Availability)
  | zeroFrame (rw : Access)
  | otherFrame (rw : Access)
deriving DecidableEq

def PageInfo.sight : PageInfo → Sight
  | unavailable => .unmapped .unavailable
  | available => .unmapped .available
  | mapped frame rw => if frame = Vm.zeroFrame then .zeroFrame rw else .otherFrame rw

/-- What `check_user_page` tells, and then `get_availability` or `get_access`. -/
def observe (vm : VmState) (d vAddr : Nat) : Option Sight :=
  match checkUserPage vm d vAddr with
  | none => none
  | some .pdeNotPresent => (getAvailability vm d vAddr).map .unmapped
  | some .pteNotPresent => (getAvailability vm d vAddr).map .unmapped
  | some .zeroFrameMapped => (getAccess vm d vAddr).map .zeroFrame
  | some .newFrameMapped => (getAccess vm d vAddr).map .otherFrame

inductive PageOp where
  | mapNewFrame
  | mapZeroFrame
  | unmapFrame
  | setAccess (access : Nat)
  | setAvailability (availability : Nat)

def PageOp.apply (vm : VmState) (d vAddr : Nat) : PageOp → Bool × VmState
  | .mapNewFrame => Vm.mapNewFrame vm d vAddr
  | .mapZeroFrame => Vm.mapZeroFrame vm d vAddr
  | .unmapFrame => Vm.unmapFrame vm d vAddr
  | .setAccess access => Vm.setAccess vm d vAddr access
  | .setAvailability availability => Vm.setAvailability vm d vAddr availability

/-- What the operation leaves of a page that was `old`. -/
def PageOp.Gives (old new : PageInfo) : PageOp → Prop
  | .mapNewFrame => ∃ frame, frame ≠ zeroFrame ∧ new = .mapped frame .readWrite
  | .mapZeroFrame => new = .mapped zeroFrame .readOnly
  | .unmapFrame => new = .available
  | .setAccess access => ∃ frame was rw, old = .mapped frame was ∧ Access.ofNat? access = some rw ∧
      new = .mapped frame rw
  | .setAvailability availability => ∃ avail, Availability.ofNat? availability = some avail ∧
      new = avail.info

/-- The map at one page. -/
def setInfo (info : Nat → Nat → Option PageInfo) (d page : Nat) (new : PageInfo) :
    Nat → Nat → Option PageInfo := fun e q => if e = d ∧ q = page then some new else info e q

/-- The operation fails and leaves the map, or puts the page at what it gives. -/
def PageOp.Sets (op : PageOp) (vm : VmState) (d vAddr : Nat) : Prop :=
  (op.apply vm d vAddr).1 = false ∧ (op.apply vm d vAddr).2.info = vm.info ∨
    ∃ old new, (op.apply vm d vAddr).1 = true ∧ vm.info d (pageOf vAddr) = some old ∧
      op.Gives old new ∧ (op.apply vm d vAddr).2.info = setInfo vm.info d (pageOf vAddr) new

/-! ### Observations -/

section
variable {vm vm' : VmState} {d v page : Nat} {space : Nat → PageState}

theorem info_of_space (user : UserPage page) (hd : vm.abs.space d = some space) :
    vm.info d page = some (space page).info := by
  rw [VmState.info, if_pos user, hd]
  rfl

theorem getAvailability_of_space (user : UserPage (pageOf v)) (hd : vm.abs.space d = some space)
    {avail : Availability} (here : space (pageOf v) = .unmapped avail) :
    getAvailability vm d v = some avail :=
  getAvailability_eq.mpr ⟨space, hd, user, here⟩

theorem getAccess_of_space (user : UserPage (pageOf v)) (hd : vm.abs.space d = some space)
    {pte : Pte} (here : space (pageOf v) = .mapped pte) : getAccess vm d v = some pte.rw :=
  getAccess_eq.mpr ⟨space, pte, hd, user, here, rfl⟩

theorem sight_of_availability (avail : Availability) : avail.info.sight = .unmapped avail := by
  cases avail <;> rfl

/-- What callers see is the map, but for the numbers of the frames. -/
theorem observe_eq (vm : VmState) (d v : Nat) :
    observe vm d v = (vm.info d (pageOf v)).map PageInfo.sight := by
  by_cases user : UserPage (pageOf v)
  swap
  · have low := not_userPage.mpr user
    rw [VmState.info, if_neg user, observe, checkUserPage]
    cases vm.dirs d with
    | none => rfl
    | some pd =>
        dsimp only
        rw [if_pos low]
        rfl
  cases hd : vm.abs.space d with
  | none =>
      have dead : vm.dirs d = none := Option.map_eq_none_iff.mp hd
      rw [VmState.info, if_pos user, hd, observe, checkUserPage, dead]
      rfl
  | some space =>
      rw [info_of_space user hd, observe]
      rcases checkUserPage_cases hd user with ⟨avail, seen, all⟩ | ⟨avail, seen, here⟩ |
        ⟨pte, seen, here, zero⟩ | ⟨pte, seen, here, other⟩
      · have here := all (pageOf v) rfl
        rw [seen]
        dsimp only
        rw [getAvailability_of_space user hd here, here]
        exact congrArg some (sight_of_availability avail).symm
      · rw [seen]
        dsimp only
        rw [getAvailability_of_space user hd here, here]
        exact congrArg some (sight_of_availability avail).symm
      · rw [seen]
        dsimp only
        rw [getAccess_of_space user hd here, here, PageState.info, Option.map_some, Option.map_some,
          PageInfo.sight, if_pos zero]
      · rw [seen]
        dsimp only
        rw [getAccess_of_space user hd here, here, PageState.info, Option.map_some, Option.map_some,
          PageInfo.sight, if_neg other]

/-! ### Operations -/

theorem info_of_abs (abs : vm'.abs = vm.abs) : vm'.info = vm.info := by
  funext e q
  rw [VmState.info, VmState.info, abs]

/-- A page put into a new state. -/
theorem info_of_setPage (vm' : VmState) (state : PageState) (user : UserPage page)
    (hd : vm.abs.space d = some space)
    (abs : vm'.abs.space =
      Function.update vm.abs.space d (some (Function.update space page state))) :
    vm'.info = setInfo vm.info d page state.info := by
  funext e q
  rw [setInfo]
  by_cases target : e = d ∧ q = page
  · obtain ⟨rfl, rfl⟩ := target
    have here : vm'.abs.space e = some (Function.update space q state) := by
      rw [abs, Function.update_self]
    rw [if_pos ⟨rfl, rfl⟩, info_of_space user here, Function.update_self]
  · rw [if_neg target, VmState.info, VmState.info, abs]
    by_cases dir : e = d
    · subst dir
      have other : q ≠ page := fun same => target ⟨rfl, same⟩
      rw [Function.update_self, hd, Option.map_some, Option.map_some, Function.update_of_ne other]
    · rw [Function.update_of_ne dir]

theorem sets_mapNewFrame (wf : vm.abs.Wf) (d v : Nat) : PageOp.mapNewFrame.Sets vm d v := by
  rcases mapNewFrame_spec vm d v with ⟨fails, abs⟩ |
    ⟨space, frame, rest, avail, ok, hd, user, state, free, abs⟩
  · exact .inl ⟨fails, info_of_abs abs⟩
  obtain ⟨aligned, -, nz⟩ := wf.pool frame (free ▸ List.mem_cons_self)
  have number : (newFramePte frame).pageAddr * pageSize = frame := Nat.div_mul_cancel aligned
  refine .inr ⟨avail.info, .mapped frame .readWrite, ok, ?_, ⟨frame, nz, rfl⟩, ?_⟩
  · rw [info_of_space user hd, state]
    rfl
  · have set := info_of_setPage (mapNewFrame vm d v).2 _ user hd (by rw [abs]; rfl)
    rw [PageState.info, number] at set
    exact set

theorem sets_mapZeroFrame (vm : VmState) (d v : Nat) : PageOp.mapZeroFrame.Sets vm d v := by
  rcases mapZeroFrame_spec vm d v with ⟨fails, abs⟩ | ⟨space, avail, ok, hd, user, state, abs⟩
  · exact .inl ⟨fails, info_of_abs abs⟩
  refine .inr ⟨avail.info, .mapped zeroFrame .readOnly, ok, ?_, rfl, ?_⟩
  · rw [info_of_space user hd, state]
    rfl
  · exact info_of_setPage (mapZeroFrame vm d v).2 _ user hd (by rw [abs]; rfl)

theorem sets_unmapFrame (vm : VmState) (d v : Nat) : PageOp.unmapFrame.Sets vm d v := by
  rcases unmapFrame_spec vm d v with ⟨fails, abs⟩ | ⟨space, pte, vm', ok, hd, user, state, abs, eq⟩
  · exact .inl ⟨fails, info_of_abs abs⟩
  refine .inr ⟨.mapped (pte.pageAddr * pageSize) pte.rw, .available, ok, ?_, rfl, ?_⟩
  · rw [info_of_space user hd, state]
    rfl
  · refine info_of_setPage (unmapFrame vm d v).2 (.unmapped .available) user hd ?_
    rw [eq, freeFrame_space, abs]
    rfl

theorem sets_setAccess (vm : VmState) (d v access : Nat) : (PageOp.setAccess access).Sets vm d v := by
  rcases setAccess_spec vm d v access with ⟨fails, abs⟩ |
    ⟨space, pte, rw, ok, hd, user, state, bit, abs⟩
  · exact .inl ⟨fails, info_of_abs abs⟩
  refine .inr ⟨.mapped (pte.pageAddr * pageSize) pte.rw, .mapped (pte.pageAddr * pageSize) rw, ok, ?_,
    ⟨_, _, rw, rfl, bit, rfl⟩, ?_⟩
  · rw [info_of_space user hd, state]
    rfl
  · exact info_of_setPage (setAccess vm d v access).2 _ user hd (by rw [abs]; rfl)

theorem sets_setAvailability (vm : VmState) (d v availability : Nat) :
    (PageOp.setAvailability availability).Sets vm d v := by
  rcases setAvailability_spec vm d v availability with ⟨fails, abs⟩ |
    ⟨space, old, avail, ok, hd, user, state, bits, abs⟩
  · exact .inl ⟨fails, info_of_abs abs⟩
  refine .inr ⟨old.info, avail.info, ok, ?_, ⟨avail, bits, rfl⟩, ?_⟩
  · rw [info_of_space user hd, state]
    rfl
  · exact info_of_setPage (setAvailability vm d v availability).2 _ user hd (by rw [abs]; rfl)

theorem sets_pageOp (wf : vm.abs.Wf) (op : PageOp) (d v : Nat) : op.Sets vm d v := by
  cases op with
  | mapNewFrame => exact sets_mapNewFrame wf d v
  | mapZeroFrame => exact sets_mapZeroFrame vm d v
  | unmapFrame => exact sets_unmapFrame vm d v
  | setAccess access => exact sets_setAccess vm d v access
  | setAvailability availability => exact sets_setAvailability vm d v availability

end

/-- In every state that the page directory manager reaches, callers see the map, before
and after every operation on a page, and the operation changes the map at this page
only, on success to what it gives, and on failure nowhere. -/
theorem page_map {physFrames : Nat} (fits : physFrames ≤ virtualAddrEnd / pageSize)
    {oracle : Nat → Bool} (ok : (initPageDirManager physFrames (.boot oracle)).1 = true)
    (ops : List VmOp) (op : PageOp) (d v : Nat) :
    let vm := Run.run VmOp.apply (initPageDirManager physFrames (.boot oracle)).2 ops
    let vm' := (op.apply vm d v).2
    (∀ e w, observe vm e w = (vm.info e (pageOf w)).map PageInfo.sight ∧
      observe vm' e w = (vm'.info e (pageOf w)).map PageInfo.sight) ∧ op.Sets vm d v :=
  have wf := Run.run_invariant (P := fun vm : VmState => vm.abs.Wf) (fun _ op wf => wf.apply op)
    (wf_boot fits ok) ops
  ⟨fun e w => ⟨observe_eq _ e w, observe_eq _ e w⟩, sets_pageOp wf op d v⟩

/-- A machine with two frames to give, and one directory with a page mapped. -/
def oneDir : VmState :=
  Run.run VmOp.apply (initPageDirManager 4099 (.boot fun _ => true)).2
    [.constructPageDir, .mapNewFrame 0 userMemStart]

theorem page_map_one_dir : PageOp.mapZeroFrame.Sets oneDir 0 (userMemStart + 4096) :=
  (page_map (by decide) (rfl : (initPageDirManager 4099 (.boot fun _ => true)).1 = true)
    [.constructPageDir, .mapNewFrame 0 userMemStart] .mapZeroFrame 0 (userMemStart + 4096)).2

/-- `map_zero_frame` does not give read and write access, as `map_new_frame` does. -/
theorem zero_frame_read_only :
    (mapZeroFrame oneDir 0 (userMemStart + 4096)).1 = true ∧
      getAccess (mapZeroFrame oneDir 0 (userMemStart + 4096)).2 0 (userMemStart + 4096) =
        some .readOnly ∧
      (mapZeroFrame oneDir 0 (userMemStart + 4096)).2.info 0 (pageOf (userMemStart + 4096)) ≠
        some (.mapped zeroFrame .readWrite) := by
  decide

end OsKernel.Vm
