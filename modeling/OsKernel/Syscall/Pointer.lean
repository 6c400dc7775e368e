/-
The checks of a pointer and the handler of page faults.

`is_readable` and `is_writable` decide page by page, from the page tables alone, whether
the kernel may use a range of memory that a user program names. `handle_page_fault` decides,
from the error code and the page tables, whether a fault is repaired. `Loads` and `Stores`
say what the program itself can do at an address: the access is done, or its fault is
repaired, and it is done when it is made again. The two decisions agree at every address
(`goes_iff`), so the checks accept just the ranges that the program can use
(`pointer_checks`).
-/

import OsKernel.Vm.Frames
import OsKernel.Vm.UserTables
import OsKernel.Syscall.Packet
import OsKernel.Syscall.Rules
import OsKernel.Memory.Load

namespace OsKernel.Pointer

open OsKernel.Vm OsKernel.Memory Prog
open OsKernel.Syscall (SameProcs sameProcs_mem exec_unmapFrame)
open OsKernel.Packet (readablePage isReadable)

/-- An access of thread `t`, which ends as `ends` says, goes through: at once, or after
`handle_page_fault` came back from its fault. -/
def Goes (s : Kernel) (t d v : Nat) (write : Bool) (ends : Kernel → Completion) : Prop :=
  ends s = .done ∨ ∃ present s', ends s = .fault present ∧
    s.eval t (handlePageFault d present write v) = (s', some ()) ∧ ends s' = .done

/-- A user-mode load. -/
def Loads (s : Kernel) (t d v : Nat) : Prop :=
  Goes s t d v false fun s => (s.exec t (.load v)).2

/-- A user-mode store. -/
def Stores (s : Kernel) (t d v : Nat) (b : UInt8) : Prop :=
  Goes s t d v true fun s => (s.exec t (.store v b)).2

/-- The check of one page, for loads or for stores. -/
def checkedPage (write : Bool) (vm : VmState) (d v : Nat) : Bool :=
  if write then Packet.writablePage vm d v else readablePage vm d v

/-! ### Ranges -/

/-- A check that looks at pages accepts a range when it accepts every byte of it. -/
theorem all_pagesOf {page : Nat → Bool} (byPage : ∀ v w, pageOf v = pageOf w → page v = page w)
    {addr size : Nat} :
    (pagesOf addr size).all page = true ↔ ∀ v, addr ≤ v → v < addr + size → page v = true := by
  rw [List.all_eq_true]
  constructor
  · intro h v low high
    obtain ⟨w, mem, same⟩ := visits_iff.mpr ⟨v, low, high, rfl⟩
    rw [← byPage w v same]
    exact h w mem
  · intro h w mem
    obtain ⟨v, low, high, same⟩ := visits_iff.mp ⟨w, mem, rfl⟩
    rw [← byPage v w same]
    exact h v low high

/-! ### Pages -/

theorem user_pde {v : Nat} (user : UserPage (pageOf v)) : kernelPageTableCount ≤ pdeIdx v := by
  have low := user.1
  change 4 ≤ pageOf v / pteCount
  simp only [kernelPageCount, userPageStart, userMemStart, pteCount, pageSize] at *
  omega

/-- The bits of a user page decide about an access. -/
theorem translate_isSome {pd : PageDir} (orderly : Orderly pd) {v : Nat}
    (user : UserPage (pageOf v)) (write : Bool) : (translate pd v write).isSome = true ↔
      ∃ pte, stateOf pd (pageOf v) = .mapped pte ∧ (write = true → pte.rw = .readWrite) := by
  constructor
  · intro some
    obtain ⟨a, h⟩ := Option.isSome_iff_exists.mp some
    obtain ⟨pte, here, -, bit, -⟩ := translate_spec h
    exact ⟨pte, here, bit⟩
  · rintro ⟨pte, here, bit⟩
    unfold Memory.translate
    cases entry : pd (pdeIdx v) with
    | absent avail =>
        rw [stateOf_absent entry] at here
        cases here
    | present rw us g pt =>
        obtain ⟨all, mode, opens⟩ := orderly.tables _ _ _ _ _ (user_pde user) entry
        have state := here
        rw [stateOf_present entry, Pte.state] at state
        dsimp only
        split at state
        · rename_i present
          cases state
          rw [if_pos ⟨present, mode, opens _ present, fun w => ⟨all, bit w⟩⟩]
          rfl
        · cases state

section
variable {vm : VmState} {pd : PageDir} {d v : Nat}

theorem readablePage_iff (dir : vm.dirs d = some pd) (user : UserPage (pageOf v)) :
    readablePage vm d v = true ↔ stateOf pd (pageOf v) ≠ .unmapped .unavailable := by
  have hd := abs_space_some dir
  unfold readablePage
  rcases checkUserPage_cases hd user with ⟨avail, seen, all⟩ | ⟨avail, seen, here⟩ |
    ⟨pte, seen, here, -⟩ | ⟨pte, seen, here, -⟩ <;> rw [seen]
  · have here := all (pageOf v) rfl
    rw [getAvailability_eq.mpr ⟨_, hd, user, here⟩, here]
    cases avail <;> simp
  · rw [getAvailability_eq.mpr ⟨_, hd, user, here⟩, here]
    cases avail <;> simp
  · simp [here]
  · simp [here]

theorem writablePage_iff (dir : vm.dirs d = some pd) (user : UserPage (pageOf v)) :
    Packet.writablePage vm d v = true ↔ stateOf pd (pageOf v) = .unmapped .available ∨
      ∃ pte, stateOf pd (pageOf v) = .mapped pte ∧
        (pte.rw = .readWrite ∨ pte.pageAddr * pageSize = zeroFrame) := by
  have hd := abs_space_some dir
  unfold Packet.writablePage
  rcases checkUserPage_cases hd user with ⟨avail, seen, all⟩ | ⟨avail, seen, here⟩ |
    ⟨pte, seen, here, zero⟩ | ⟨pte, seen, here, other⟩ <;> rw [seen]
  · have here := all (pageOf v) rfl
    rw [getAvailability_eq.mpr ⟨_, hd, user, here⟩, here]
    cases avail <;> simp
  · rw [getAvailability_eq.mpr ⟨_, hd, user, here⟩, here]
    cases avail <;> simp
  · simp [here, zero]
  · rw [getAccess_eq.mpr ⟨_, pte, hd, user, here, rfl⟩]
    simp [here, other]

end

/-! ### Faults -/

/-- Thread `t` runs in a process that has the directory. -/
structure Runs (s : Kernel) (t : Nat) (pr : Proc) (pd : PageDir) : Prop where
  proc : s.proc t = some pr
  dir : s.mem.vm.dirs pr.dir = some pd

/-- The ways in which the accesses of a thread end. -/
def EndsAs (t v : Nat) (write : Bool) (ends : Kernel → Completion) : Prop :=
  ∀ s pr pd, Runs s t pr pd → ends s =
    if (translate pd v write).isSome then .done else .fault (faultPresent pd v)

section
variable {s s' : Kernel} {t v : Nat} {pr : Proc} {pd : PageDir} {write : Bool}

theorem Runs.thread (runs : Runs s t pr pd) : ∃ p, s.thread t = some p ∧ s.procs p = some pr := by
  have proc := runs.proc
  rw [Kernel.proc, Option.bind_eq_some_iff] at proc
  exact proc

theorem Runs.alive (runs : Runs s t pr pd) : s.alive t = true := by
  obtain ⟨p, thread, -⟩ := runs.thread
  rw [Kernel.alive, thread]
  rfl

theorem userAccess_ends (runs : Runs s t pr pd) (go : Nat → Nat → Kernel) :
    (s.userAccess t v write go).2 =
      if (translate pd v write).isSome then .done else .fault (faultPresent pd v) := by
  obtain ⟨p, thread, -⟩ := runs.thread
  simp only [Kernel.userAccess, thread, runs.proc, Option.bind_some, runs.dir]
  cases translate pd v write <;> rfl

theorem endsAs_load (t : Nat) (high : v < virtualAddrEnd) :
    EndsAs t v false fun s => (s.exec t (.load v)).2 := by
  intro s pr pd runs
  simp only [Kernel.exec, Nat.mod_eq_of_lt high]
  exact userAccess_ends runs _

theorem endsAs_store (t : Nat) (b : UInt8) (high : v < virtualAddrEnd) :
    EndsAs t v true fun s => (s.exec t (.store v b)).2 := by
  intro s pr pd runs
  simp only [Kernel.exec, Nat.mod_eq_of_lt high]
  exact userAccess_ends runs _

/-- A fault that is repaired is one the handler comes back from. -/
theorem handlePageFault_eval {d : Nat} {present ok : Bool}
    (repaired : s.eval t (repairPage d present write v) = (s', some ok))
    (runs : Runs s' t pr pd) :
    if ok then s.eval t (handlePageFault d present write v) = (s', some ())
      else (s.eval t (handlePageFault d present write v)).2 = none := by
  unfold handlePageFault Kernel.eval at *
  rw [eval_bind, repaired]
  cases ok with
  | true => rfl
  | false =>
      obtain ⟨p, thread, procs⟩ := runs.thread
      rw [if_neg (by decide)]
      change (Prog.eval (Kernel.exec t) (Kernel.alive t) (perform (.vanish d)) s').2 = none
      rw [eval_perform, Kernel.exec, Kernel.proc, thread, Option.bind_some, procs]
      simp [Kernel.alive]

theorem eval_act {α : Type} (a : Act) (k : a.Result → Program α)
    (alive : (s.exec t a).1.alive t = true) :
    s.eval t (act a >>= k) = (s.exec t a).1.eval t (k (s.exec t a).2) := by
  unfold Kernel.eval
  rw [eval_bind, Memory.act, eval_perform, if_pos alive]

/-- A page that is not mapped and may not be given a frame. -/
theorem repair_unavailable (runs : Runs s t pr pd) (user : UserPage (pageOf v))
    (here : stateOf pd (pageOf v) = .unmapped .unavailable) (write : Bool) :
    s.eval t (repairPage pr.dir false write v) = (s, some false) := by
  have bits : getAvailability s.mem.vm pr.dir v = some .unavailable :=
    getAvailability_eq.mpr ⟨_, abs_space_some runs.dir, user, here⟩
  rw [repairPage, if_pos rfl, eval_act _ _ runs.alive]
  simp only [Kernel.exec, bits]
  rfl

/-- A page with a frame of its own. -/
theorem repair_ownFrame (runs : Runs s t pr pd) (user : UserPage (pageOf v)) {pte : Pte}
    (here : stateOf pd (pageOf v) = .mapped pte) (other : pte.pageAddr * pageSize ≠ zeroFrame)
    (write : Bool) : s.eval t (repairPage pr.dir true write v) = (s, some false) := by
  have seen : checkUserPage s.mem.vm pr.dir v = some .newFrameMapped := by
    rcases checkUserPage_cases (abs_space_some runs.dir) user with ⟨avail, -, all⟩ |
      ⟨avail, -, state⟩ | ⟨pte', -, state, zero⟩ | ⟨pte', seen, -, -⟩
    · rw [all _ rfl] at here
      cases here
    · rw [state] at here
      cases here
    · rw [state, PageState.mapped.injEq] at here
      exact absurd (here ▸ zero) other
    · exact seen
  rw [repairPage, if_neg (by decide), eval_act _ _ runs.alive]
  simp only [Kernel.exec, seen]
  rfl

/-- The thread still runs in its process, and its directory maps the page of `v` for the
access. -/
structure Repaired (s' : Kernel) (t : Nat) (pr : Proc) (v : Nat) (write : Bool) (pd' : PageDir) :
    Prop where
  runs : Runs s' t pr pd'
  orderly : Orderly pd'
  mapped : ∃ pte, stateOf pd' (pageOf v) = .mapped pte ∧ (write = true → pte.rw = .readWrite)

theorem Repaired.written (pte : Pte) {s' : Kernel} (same : SameProcs s s') (runs : Runs s t pr pd)
    (orderly : Orderly pd) (table : HasTable pd v) (present : pte.p = true) (opens : pte.us = true)
    (bit : write = true → pte.rw = .readWrite)
    (dir : s'.mem.vm.dirs pr.dir = some (writePte pd v pte)) :
    Repaired s' t pr v write (writePte pd v pte) := by
  have proc : s'.proc t = some pr := by
    rw [Kernel.proc, same.thread, same.procs]
    exact runs.proc
  refine ⟨⟨proc, dir⟩, orderly.writePte v fun _ _ => opens, pte, ?_, bit⟩
  rw [stateOf_writePte table, Function.update_self, Pte.state, if_pos present]

theorem clearPage_vm (m : Mem) (d v : Nat) : (m.clearPage d v).vm = m.vm := by
  unfold Mem.clearPage
  split <;> rfl

/-- `map_new_frame` and `memset`, with a frame in the pool. -/
theorem mapAndClearNew_eval (runs : Runs s t pr pd) (orderly : Orderly pd)
    (user : UserPage (pageOf v)) (table : HasTable pd v) {avail : Availability}
    (here : stateOf pd (pageOf v) = .unmapped avail) (pool : s.mem.vm.allocList ≠ []) :
    ∃ s' pd', s.eval t (mapAndClearNew pr.dir v) = (s', some true) ∧
      Repaired s' t pr v true pd' := by
  obtain ⟨frame, rest, free⟩ := List.exists_cons_of_ne_nil pool
  have ran := mapNewFrame_succeeds runs.dir user table here free
  have mapped := runs.alive
  let s₁ : Kernel := { s with mem := s.mem.withVm (mapNewFrame s.mem.vm pr.dir v).2 }
  have first : s.exec t (.mapNewFrame pr.dir v) = (s₁, true) := by
    rw [Kernel.exec, Kernel.setVm, ran]
    simp only [s₁, ran]
  have same : SameProcs s { s₁ with mem := s₁.mem.clearPage pr.dir v } := ⟨rfl, rfl, rfl⟩
  refine ⟨{ s₁ with mem := s₁.mem.clearPage pr.dir v }, _, ?_,
    Repaired.written (newFramePte frame) same runs orderly table rfl rfl (fun _ => rfl) ?_⟩
  · rw [mapAndClearNew, eval_act _ _ (by rw [first]; exact mapped), first, if_pos rfl,
      eval_act _ _ mapped]
    rfl
  · rw [clearPage_vm]
    change (mapNewFrame s.mem.vm pr.dir v).2.dirs pr.dir = _
    rw [ran]
    exact Function.update_self ..

/-- A page that is available. -/
theorem repair_available (runs : Runs s t pr pd) (orderly : Orderly pd)
    (user : UserPage (pageOf v)) (table : HasTable pd v)
    (here : stateOf pd (pageOf v) = .unmapped .available)
    (pool : write = true → s.mem.vm.allocList ≠ []) :
    ∃ s' pd', s.eval t (repairPage pr.dir false write v) = (s', some true) ∧
      Repaired s' t pr v write pd' := by
  have bits : getAvailability s.mem.vm pr.dir v = some .available :=
    getAvailability_eq.mpr ⟨_, abs_space_some runs.dir, user, here⟩
  rw [repairPage, if_pos rfl, eval_act _ _ runs.alive]
  simp only [Kernel.exec, bits]
  cases write with
  | true => exact mapAndClearNew_eval runs orderly user table here (pool rfl)
  | false =>
      have ran := mapZeroFrame_succeeds runs.dir user table here
      refine ⟨{ s with mem := s.mem.withVm (mapZeroFrame s.mem.vm pr.dir v).2 }, _, ?_,
        Repaired.written zeroFramePte (sameProcs_mem s _) runs orderly table rfl rfl
          (fun w => by cases w) ?_⟩
      · have alive : (s.exec t (.mapZeroFrame pr.dir v)).1.alive t = true := runs.alive
        rw [if_neg (by decide), Kernel.eval, Memory.act, eval_perform, if_pos alive, Kernel.exec,
          Kernel.setVm, ran]
      · change (mapZeroFrame s.mem.vm pr.dir v).2.dirs pr.dir = _
        rw [ran]
        exact Function.update_self ..

/-- A page that was only read so far. -/
theorem repair_zeroFrame (runs : Runs s t pr pd) (orderly : Orderly pd)
    (user : UserPage (pageOf v)) {pte : Pte} (here : stateOf pd (pageOf v) = .mapped pte)
    (zero : pte.pageAddr * pageSize = zeroFrame) (pool : s.mem.vm.allocList ≠ []) :
    ∃ s' pd', s.eval t (repairPage pr.dir true true v) = (s', some true) ∧
      Repaired s' t pr v true pd' := by
  have seen : checkUserPage s.mem.vm pr.dir v = some .zeroFrameMapped := by
    rcases checkUserPage_cases (abs_space_some runs.dir) user with ⟨avail, -, all⟩ |
      ⟨avail, -, state⟩ | ⟨pte', seen, -, -⟩ | ⟨pte', -, state, other⟩
    · rw [all _ rfl] at here
      cases here
    · rw [state] at here
      cases here
    · exact seen
    · rw [state, PageState.mapped.injEq] at here
      exact absurd zero (here ▸ other)
  obtain ⟨found, table⟩ := find_of_mapped here
  have high : ¬ pageOf v * pageSize < userPageStart := fun low => not_userPage.mp low user
  have unmapped : unmapFrame s.mem.vm pr.dir v =
      (true, s.mem.vm.setDir pr.dir (writePte pd v { available := .available })) := by
    simp only [unmapFrame, runs.dir, high, ↓reduceIte, found, zero, freeFrame_zeroFrame]
  obtain ⟨same, mem, result⟩ := exec_unmapFrame t s pr.dir v false
  rw [unmapped] at mem result
  have proc : (s.exec t (.unmapFrame pr.dir v false)).1.proc t = some pr := by
    rw [Kernel.proc, same.thread, same.procs]
    exact runs.proc
  have runs₁ : Runs (s.exec t (.unmapFrame pr.dir v false)).1 t pr
      (writePte pd v { available := .available }) :=
    ⟨proc, by rw [mem]; exact Function.update_self ..⟩
  rw [repairPage, if_neg (by decide), eval_act _ _ runs.alive]
  simp only [Kernel.exec, seen]
  rw [eval_act _ _ runs₁.alive, result, if_pos rfl]
  have left : stateOf (writePte pd v { available := .available }) (pageOf v) =
      .unmapped .available := by
    rw [stateOf_writePte table, Function.update_self]
    rfl
  exact mapAndClearNew_eval runs₁ ((orderly.writePte v) fun _ mapped => by cases mapped) user
    (hasTable_writePte table _) left (by rw [mem]; exact pool)

/-- The page has a frame of its own. -/
def Framed (pd : PageDir) (v : Nat) : Prop :=
  ∃ pte, stateOf pd (pageOf v) = .mapped pte ∧ pte.pageAddr * pageSize ≠ zeroFrame

/-- The access goes through just where the check accepts the page; a store to a page without
a frame of its own needs one in the pool. -/
theorem goes_iff (runs : Runs s t pr pd) (orderly : s.mem.vm.Orderly) (user : UserPage (pageOf v))
    (pool : write = true → Framed pd v ∨ s.mem.vm.allocList ≠ []) {ends : Kernel → Completion}
    (endsAs : EndsAs t v write ends) :
    Goes s t pr.dir v write ends ↔ checkedPage write s.mem.vm pr.dir v = true := by
  have ok := orderly _ _ runs.dir
  have state := stateOf_pageOf pd v
  have now := endsAs s pr pd runs
  have granted := translate_isSome ok user write
  -- an access that is repaired is done when it is made again
  have again : ∀ present, ends s = .fault present →
      (∃ s' pd', s.eval t (repairPage pr.dir present write v) = (s', some true) ∧
        Repaired s' t pr v write pd') → Goes s t pr.dir v write ends := by
    rintro present faults ⟨s', pd', ran, repaired⟩
    refine .inr ⟨present, s', faults, handlePageFault_eval ran repaired.runs, ?_⟩
    rw [endsAs s' pr pd' repaired.runs,
      if_pos ((translate_isSome repaired.orderly user write).mpr repaired.mapped)]
  -- and one that is not repaired ends the thread
  have never : ∀ present, ends s = .fault present →
      s.eval t (repairPage pr.dir present write v) = (s, some false) →
        ¬ Goes s t pr.dir v write ends := by
    rintro present faults ran (done | ⟨present', s', faults', back, -⟩)
    · rw [done] at faults
      cases faults
    · cases faults.symm.trans faults'
      have gone := handlePageFault_eval ran runs
      rw [if_neg (by decide), back] at gone
      cases gone
  have check : checkedPage write s.mem.vm pr.dir v = true ↔
      stateOf pd (pageOf v) = .unmapped .available ∨
        ∃ pte, stateOf pd (pageOf v) = .mapped pte ∧
          (write = true → pte.rw = .readWrite ∨ pte.pageAddr * pageSize = zeroFrame) := by
    cases write with
    | true =>
        rw [checkedPage, if_pos rfl, writablePage_iff runs.dir user]
        simp
    | false =>
        rw [checkedPage, if_neg (by decide), readablePage_iff runs.dir user]
        cases stateOf pd (pageOf v) with
        | unmapped avail => cases avail <;> simp
        | mapped pte => simp
  rw [check]
  cases here : stateOf pd (pageOf v) with
  | unmapped avail =>
      have denied : ¬ (translate pd v write).isSome = true := by
        rw [granted, here]
        rintro ⟨pte, other, -⟩
        cases other
      have absent : faultPresent pd v = false := by
        unfold faultPresent
        rcases findFrame_cases pd v with ⟨_, found, -⟩ | ⟨_, found, -⟩ | ⟨_, -, -, -, other⟩
        · rw [found]
        · rw [found]
        · rw [other] at here
          cases here
      rw [if_neg denied, absent] at now
      cases avail with
      | unavailable =>
          refine iff_of_false (never _ now (repair_unavailable runs user here write)) ?_
          simp
      | available =>
          have hd := abs_space_some runs.dir
          obtain ⟨pd', dir, table⟩ := tabled_of_available orderly hd here
          cases runs.dir.symm.trans dir
          have frame : write = true → s.mem.vm.allocList ≠ [] := by
            refine fun w => (pool w).resolve_left ?_
            rintro ⟨pte, mapped, -⟩
            rw [here] at mapped
            cases mapped
          exact iff_of_true (again _ now (repair_available runs ok user table here frame)) (.inl rfl)
  | mapped pte =>
      by_cases bit : write = true → pte.rw = .readWrite
      · have done : (translate pd v write).isSome = true := granted.mpr ⟨pte, here, bit⟩
        rw [if_pos done] at now
        exact iff_of_true (.inl now) (.inr ⟨pte, rfl, fun w => .inl (bit w)⟩)
      have denied : ¬ (translate pd v write).isSome = true := by
        rw [granted, here]
        rintro ⟨pte', same, bit'⟩
        cases same
        exact bit bit'
      have present : faultPresent pd v = true := by
        rw [faultPresent, (find_of_mapped here).1]
      rw [if_neg denied, present] at now
      obtain ⟨rfl, readOnly⟩ := Classical.not_imp.mp bit
      by_cases zero : pte.pageAddr * pageSize = zeroFrame
      · have frame : s.mem.vm.allocList ≠ [] := by
          refine (pool rfl).resolve_left ?_
          rintro ⟨pte', mapped, other⟩
          rw [here] at mapped
          cases mapped
          exact other zero
        exact iff_of_true (again _ now (repair_zeroFrame runs ok user here zero frame))
          (.inr ⟨pte, rfl, fun _ => .inr zero⟩)
      · refine iff_of_false (never _ now (repair_ownFrame runs user here zero true)) ?_
        rintro (other | ⟨pte', same, bits⟩)
        · cases other
        · cases same
          exact (bits rfl).elim readOnly zero

end

/-! ### Checks -/

/-- The check of a page does not look at the offset of an address. -/
theorem checkedPage_congr (write : Bool) (vm : VmState) (d : Nat) {v w : Nat}
    (same : pageOf v = pageOf w) : checkedPage write vm d v = checkedPage write vm d w := by
  have pde : pdeIdx v = pdeIdx w := by rw [pdeIdx, pdeIdx, same]
  have pte : pteIdx v = pteIdx w := by rw [pteIdx, pteIdx, same]
  have find : ∀ pd, findFrame pd v = findFrame pd w := fun pd => by
    rw [findFrame, findFrame, pde, pte]
  have seen : checkUserPage vm d v = checkUserPage vm d w := by
    simp only [checkUserPage, find, same]
  have bits : getAvailability vm d v = getAvailability vm d w := by
    simp only [getAvailability, find, same]
  have access : getAccess vm d v = getAccess vm d w := by
    simp only [getAccess, find, same]
  rw [checkedPage, checkedPage, Packet.writablePage, Packet.writablePage, readablePage,
    readablePage, seen, bits, access]

theorem inUser_iff {s : Kernel} {t : Nat} {pr : Proc} {pd : PageDir} (write : Bool)
    (runs : Runs s t pr pd) (orderly : s.mem.vm.Orderly)
    (pool : write = true → s.mem.vm.allocList ≠ []) {ends : Nat → Kernel → Completion}
    (endsAs : ∀ v < virtualAddrEnd, EndsAs t v write (ends v)) {addr size : Nat}
    (start : addr < virtualAddrEnd) :
    Packet.inUser (checkedPage write s.mem.vm pr.dir) addr size = true ↔
      addr + size ≤ virtualAddrEnd ∧ ∀ v, addr ≤ v → v < addr + size →
        userMemStart ≤ v ∧ Goes s t pr.dir v write (ends v) := by
  unfold Packet.inUser
  rw [decide_eq_true_iff]
  by_cases none : size = 0
  · subst none
    simp only [true_or, Nat.add_zero, true_iff]
    exact ⟨Nat.le_of_lt start, fun v low high => absurd low (Nat.not_le.mpr high)⟩
  constructor
  · rintro (zero | ⟨low, fits, all⟩)
    · exact absurd zero none
    have fits' : addr + size ≤ virtualAddrEnd := by omega
    refine ⟨fits', fun v from' below => ⟨by omega, ?_⟩⟩
    have inside : v < virtualAddrEnd := by omega
    rw [goes_iff runs orderly (userPage_of_high (by omega) inside) (fun w => .inr (pool w))
      (endsAs v inside)]
    exact (all_pagesOf (fun _ _ => checkedPage_congr write _ _)).mp all v from' below
  · rintro ⟨fits, all⟩
    have low := (all addr (Nat.le_refl _) (by omega)).1
    refine .inr ⟨low, by omega, ?_⟩
    rw [all_pagesOf (fun _ _ => checkedPage_congr write _ _)]
    intro v from' below
    have inside : v < virtualAddrEnd := by omega
    rw [← goes_iff runs orderly (userPage_of_high (by omega) inside) (fun w => .inr (pool w))
      (endsAs v inside)]
    exact (all v from' below).2

/-- A page that may be written may be read. -/
theorem readablePage_of_writable {vm : VmState} {d v : Nat}
    (h : Packet.writablePage vm d v = true) : readablePage vm d v = true := by
  unfold Packet.writablePage at h
  unfold readablePage
  generalize checkUserPage vm d v = seen at h ⊢
  rcases seen with - | seen
  · exact h
  · cases seen with
    | pdeNotPresent => exact h
    | pteNotPresent => exact h
    | zeroFrameMapped => rfl
    | newFrameMapped => rfl

theorem isReadable_of_writable {vm : VmState} {d addr size : Nat}
    (h : Packet.isWritable vm d addr size = true) : isReadable vm d addr size = true := by
  unfold Packet.isWritable Packet.inUser at h
  unfold isReadable Packet.inUser
  rw [decide_eq_true_iff] at h ⊢
  rcases h with none | ⟨low, fits, all⟩
  · exact .inl none
  · refine .inr ⟨low, fits, List.all_eq_true.mpr fun v mem => ?_⟩
    exact readablePage_of_writable (List.all_eq_true.mp all v mem)

/-- In every state that the calls of the page directory manager lead to, `is_readable`
accepts just the ranges that end within 32 bits, lie in the user space and can be loaded
byte by byte; `is_writable` those that can be stored to, while the pool has a frame to
give. An empty range passes both, and what passes `is_writable` passes `is_readable`. -/
theorem pointer_checks {physFrames : Nat} {oracle : Nat → Bool} (ops : List VmOp) {s : Kernel}
    (reached : s.mem.vm = Run.run VmOp.apply (initPageDirManager physFrames (.boot oracle)).2 ops)
    {t : Nat} {pr : Proc} {pd : PageDir} (runs : Runs s t pr pd) {addr : Nat}
    (start : addr < virtualAddrEnd) (size : Nat) :
    (isReadable s.mem.vm pr.dir addr size = true ↔ addr + size ≤ virtualAddrEnd ∧
      ∀ v, addr ≤ v → v < addr + size → userMemStart ≤ v ∧ Loads s t pr.dir v) ∧
    (s.mem.vm.allocList ≠ [] → ∀ b,
      (Packet.isWritable s.mem.vm pr.dir addr size = true ↔ addr + size ≤ virtualAddrEnd ∧
        ∀ v, addr ≤ v → v < addr + size → userMemStart ≤ v ∧ Stores s t pr.dir v b)) ∧
    isReadable s.mem.vm pr.dir addr 0 = true ∧
    Packet.isWritable s.mem.vm pr.dir addr 0 = true ∧
    (Packet.isWritable s.mem.vm pr.dir addr size = true →
      isReadable s.mem.vm pr.dir addr size = true) := by
  have orderly : s.mem.vm.Orderly := reached ▸ orderly_run physFrames oracle ops
  refine ⟨?_, fun pool b => ?_, rfl, rfl, isReadable_of_writable⟩
  · exact inUser_iff false runs orderly (fun w => by cases w)
      (fun v inside => endsAs_load t inside) start
  · exact inUser_iff true runs orderly (fun _ => pool)
      (fun v inside => endsAs_store t b inside) start

/-- A process with one page that may be given a frame, and one frame to give. -/
def onePage : Kernel where
  mem := {
    vm := Run.run VmOp.apply (initPageDirManager 4098 (.boot fun _ => true)).2
      [.constructPageDir, .setAvailability 0 userMemStart 1]
    phys := fun _ => 0 }
  threadCount := 1
  thread := fun t => if t = 0 then some 0 else none
  procs := fun p => if p = 0 then some { dir := 0 } else none
  trace := []
  owner := fun _ => none
  shared := fun _ => false

theorem pointer_checks_one_page :
    Packet.isWritable onePage.mem.vm 0 (userMemStart + 8) 16 = true ↔
      userMemStart + 8 + 16 ≤ virtualAddrEnd ∧ ∀ v, userMemStart + 8 ≤ v →
        v < userMemStart + 8 + 16 → userMemStart ≤ v ∧ Stores onePage 0 0 v 1 :=
  have reached : onePage.mem.vm = Run.run VmOp.apply (initPageDirManager 4098 (.boot fun _ => true)).2
      [.constructPageDir, .setAvailability 0 userMemStart 1] := rfl
  have runs : Runs onePage 0 { dir := 0 } _ := ⟨rfl, rfl⟩
  (pointer_checks _ reached runs (by decide) 16).2.1 (by decide) 1

end OsKernel.Pointer
