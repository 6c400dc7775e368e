/-
The page tables of the user space, in every directory the page directory manager reaches.

`stateOf` reads a directory page by page. The processor and `handle_page_fault` also see
what is not in it: whether a PDE is present, and the bits of the PDE. `Orderly` says what
these always are. A page that is available has a page table, so to map it allocates no
memory; and the bits of a PDE of the user space grant every access, so the bits of the PTE
decide. Every operation keeps it (`VmState.Orderly.apply`), as it holds of a fresh
directory and is kept where a table is created and where a PTE is written.
-/

import OsKernel.Vm.Accounting
import OsKernel.Lib.Run

namespace OsKernel.Vm

/-- An entry that is mapped is mapped for the user. -/
def Pte.Open (pte : Pte) : Prop := pte.p = true → pte.us = true

structure Orderly (pd : PageDir) : Prop where
  absent : ∀ i avail, pd i = .absent avail → avail = .unavailable
  tables : ∀ i rw us g pt, kernelPageTableCount ≤ i → pd i = .present rw us g pt →
    rw = .readWrite ∧ us = true ∧ ∀ j, (pt j).Open

/-- Every live directory is orderly. -/
def VmState.Orderly (vm : VmState) : Prop := ∀ d pd, vm.dirs d = some pd → Vm.Orderly pd

theorem orderly_freshDir : Orderly freshDir := by
  refine ⟨fun i avail h => ?_, fun i rw us g pt user h => ?_⟩
  · unfold freshDir at h
    split at h
    · cases h
    · cases h
      rfl
  · rw [freshDir, if_neg (Nat.not_lt.mpr user)] at h
    cases h

section
variable {pd : PageDir} (h : Orderly pd) (v : Nat)

include h

/-- A page table put behind a PDE. -/
theorem Orderly.update {i : Nat} {rw : Access} {us g : Bool} {pt : PageTable}
    (ok : kernelPageTableCount ≤ i → rw = .readWrite ∧ us = true ∧ ∀ j, (pt j).Open) :
    Orderly (Function.update pd i (.present rw us g pt)) := by
  refine ⟨fun k avail found => ?_, fun k rw' us' g' pt' user found => ?_⟩
  · by_cases same : k = i
    · rw [same, Function.update_self] at found
      cases found
    · rw [Function.update_of_ne same] at found
      exact h.absent k avail found
  · by_cases same : k = i
    · rw [same, Function.update_self] at found
      cases found
      exact ok (same ▸ user)
    · rw [Function.update_of_ne same] at found
      exact h.tables k rw' us' g' pt' user found

theorem Orderly.createTable : Orderly (createTable pd v) := by
  unfold Vm.createTable
  cases here : pd (pdeIdx v) with
  | present rw us g pt => exact h
  | absent avail => exact h.update fun _ => ⟨rfl, rfl, fun j mapped => by cases mapped⟩

theorem Orderly.writePte {pte : Pte} (ok : kernelPageTableCount ≤ pdeIdx v → pte.Open) :
    Orderly (writePte pd v pte) := by
  unfold Vm.writePte
  cases here : pd (pdeIdx v) with
  | absent avail => exact h
  | present rw us g pt =>
      refine h.update fun user => ?_
      obtain ⟨bit, mode, entries⟩ := h.tables _ _ _ _ _ user here
      refine ⟨bit, mode, fun j => ?_⟩
      by_cases entry : j = pteIdx v
      · rw [entry, Function.update_self]
        exact ok user
      · rw [Function.update_of_ne entry]
        exact entries j

/-- The entry of a page that is mapped. -/
theorem Orderly.mapped {pte : Pte} (found : findFrame pd v = .physicalFrameMapped pte)
    (user : kernelPageTableCount ≤ pdeIdx v) : pte.us = true := by
  unfold findFrame at found
  cases here : pd (pdeIdx v) with
  | absent avail => simp [here] at found
  | present rw us g pt =>
      simp only [here] at found
      split at found
      · rename_i present
        cases found
        exact (h.tables _ _ _ _ _ user here).2.2 _ present
      · cases found

end

/-! ### Operations -/

section
variable {vm : VmState} (h : vm.Orderly)

include h

theorem VmState.Orderly.setDir {d : Nat} {pd : PageDir} (ok : Vm.Orderly pd) :
    (vm.setDir d pd).Orderly := by
  intro e pd' found
  by_cases same : e = d
  · subst same
    have here : (vm.setDir e pd).dirs e = some pd := Function.update_self ..
    rw [here] at found
    cases found
    exact ok
  · exact h e pd' ((setDir_dirs vm same pd).symm.trans found)

theorem VmState.Orderly.of_dirs {vm' : VmState} (dirs : vm'.dirs = vm.dirs) : vm'.Orderly :=
  fun d pd found => h d pd (by rw [← dirs, found])

theorem VmState.Orderly.freeFrame (pAddr : Nat) : (Vm.freeFrame vm pAddr).2.Orderly :=
  h.of_dirs (freeFrame_dirs vm pAddr)

theorem VmState.Orderly.constructPageDir : (Vm.constructPageDir vm).2.Orderly := by
  have dirs := mallocAll_dirs (kernelPageTableCount + 1) vm
  unfold Vm.constructPageDir
  generalize mallocAll (kernelPageTableCount + 1) vm = out at dirs
  obtain ⟨ok, vm'⟩ := out
  have before : vm'.Orderly := h.of_dirs dirs
  cases ok with
  | true => exact before.setDir orderly_freshDir
  | false => exact before

theorem VmState.Orderly.destructPageDir (d : Nat) : (Vm.destructPageDir vm d).Orderly := by
  intro e pd found
  rw [destructPageDir_dirs] at found
  by_cases same : e = d
  · rw [same, Function.update_self] at found
    cases found
  · exact h e pd (by rwa [Function.update_of_ne same] at found)

/-- `map_new_frame` and `map_zero_frame`, by what their last part does. -/
theorem VmState.Orderly.mapPage {finish : VmState → PageDir → Bool × VmState} (d v : Nat)
    (ends : ∀ vm pd, VmState.Orderly vm → Vm.Orderly pd → (finish vm pd).2.Orderly) :
    (mapPage vm d v finish).2.Orderly := by
  unfold Vm.mapPage
  cases dir : vm.dirs d with
  | none => exact h
  | some pd =>
      dsimp only
      split
      · exact h
      · split
        · cases got : vm.oracle 0 <;> simp only [VmState.malloc, got]
          · exact h
          · exact ends _ _ h ((h d pd dir).createTable v)
        · exact ends _ _ h (h d pd dir)
        · exact h

theorem VmState.Orderly.mapNewFrame (d v : Nat) : (Vm.mapNewFrame vm d v).2.Orderly := by
  refine h.mapPage d v fun vm pd h ok => ?_
  unfold allocFrame
  cases vm.allocList with
  | nil => exact h.setDir ok
  | cons frame rest => exact VmState.Orderly.setDir h (ok.writePte v fun _ _ => rfl)

theorem VmState.Orderly.mapZeroFrame (d v : Nat) : (Vm.mapZeroFrame vm d v).2.Orderly :=
  h.mapPage d v fun _ _ h ok => h.setDir (ok.writePte v fun _ _ => rfl)

theorem VmState.Orderly.unmapFrame (d v : Nat) : (Vm.unmapFrame vm d v).2.Orderly := by
  unfold Vm.unmapFrame
  cases dir : vm.dirs d with
  | none => exact h
  | some pd =>
      dsimp only
      split
      · exact h
      · split
        · exact (h.setDir ((h d pd dir).writePte v fun _ mapped => by cases mapped)).freeFrame _
        · exact h

theorem VmState.Orderly.setAccess (d v access : Nat) :
    (Vm.setAccess vm d v access).2.Orderly := by
  unfold Vm.setAccess
  cases dir : vm.dirs d with
  | none => exact h
  | some pd =>
      dsimp only
      split
      · exact h
      · split
        · rename_i pte found
          cases Access.ofNat? access with
          | none => exact h
          | some rw =>
              refine h.setDir ((h d pd dir).writePte v fun user _ => ?_)
              have own : pte.us = true := (h d pd dir).mapped v found user
              exact own
        · exact h

theorem VmState.Orderly.setAvailability (d v availability : Nat) :
    (Vm.setAvailability vm d v availability).2.Orderly := by
  unfold Vm.setAvailability
  cases dir : vm.dirs d with
  | none => exact h
  | some pd =>
      cases Availability.ofNat? availability with
      | none => exact h
      | some avail =>
          have ok := h d pd dir
          dsimp only
          split
          · exact h
          · rcases findFrame_cases pd v with ⟨old, found, -⟩ | ⟨pte, found, absent, -⟩ |
              ⟨pte, found, -⟩ <;> simp only [found]
            · split
              · exact h
              · cases got : vm.oracle 0 <;> simp only [VmState.malloc, got]
                · exact h
                · have after : vm.malloc.2.Orderly := h
                  exact after.setDir ((ok.createTable v).writePte v fun _ mapped => by cases mapped)
            · refine h.setDir (ok.writePte v fun _ mapped => ?_)
              exact absurd (absent.symm.trans mapped) (by decide)
            · exact h

theorem VmState.Orderly.apply (op : VmOp) : (op.apply vm).Orderly := by
  cases op with
  | constructPageDir => exact h.constructPageDir
  | mapNewFrame d vAddr => exact h.mapNewFrame d vAddr
  | mapZeroFrame d vAddr => exact h.mapZeroFrame d vAddr
  | unmapFrame d vAddr => exact h.unmapFrame d vAddr
  | setAccess d vAddr access => exact h.setAccess d vAddr access
  | setAvailability d vAddr availability => exact h.setAvailability d vAddr availability
  | destructPageDir d => exact h.destructPageDir d

end

/-- There is no directory before the first is constructed. -/
theorem initPageDirManager_dirs (physFrames : Nat) (oracle : Nat → Bool) :
    (initPageDirManager physFrames (.boot oracle)).2.dirs = fun _ => none := by
  have loop : ∀ (is : List Nat) (vm : VmState), (initLoop is vm).2.dirs = vm.dirs := by
    intro is
    induction is with
    | nil => exact fun _ => rfl
    | cons i is ih =>
        intro vm
        unfold initLoop
        dsimp only
        split
        · exact ih vm
        · cases got : vm.oracle 0 <;> simp only [VmState.malloc, got]
          exact ih _
  unfold initPageDirManager initAllocator
  split
  · rfl
  · exact loop _ _

/-- The state that any calls of the page directory manager lead to. -/
theorem orderly_run (physFrames : Nat) (oracle : Nat → Bool) (ops : List VmOp) :
    (Run.run VmOp.apply (initPageDirManager physFrames (.boot oracle)).2 ops).Orderly := by
  refine Run.run_invariant (P := VmState.Orderly) (fun _ op h => h.apply op) ?_ ops
  intro d pd found
  rw [initPageDirManager_dirs] at found
  cases found

/-! ### Pages that are available -/

section
variable {vm : VmState} (orderly : vm.Orderly) {d v : Nat} {space : Nat → PageState}

include orderly

/-- A page that is available has a page table. -/
theorem tabled_of_available (hd : vm.abs.space d = some space)
    (here : space (pageOf v) = .unmapped .available) : vm.Tabled d v := by
  obtain ⟨pd, dir, rfl⟩ := dir_of_space hd
  refine ⟨pd, dir, ?_⟩
  cases entry : pd (pdeIdx v) with
  | present rw us g pt => exact ⟨rw, us, g, pt, entry⟩
  | absent avail =>
      rw [stateOf_absent entry, (orderly d pd dir).absent _ _ entry] at here
      cases here

end

/-- A page with a page table is found by its entry. -/
theorem find_of_tabled {pd : PageDir} {v : Nat} {avail : Availability} (table : HasTable pd v)
    (here : stateOf pd (pageOf v) = .unmapped avail) :
    ∃ pte, findFrame pd v = .nonpresentPte pte := by
  rcases findFrame_cases pd v with ⟨avail', found, -⟩ | ⟨pte, found, -⟩ | ⟨pte, -, -, -, other⟩
  · obtain ⟨rw, us, g, pt, h⟩ := table
    simp only [findFrame, h] at found
    split at found <;> cases found
  · exact ⟨pte, found⟩
  · rw [other] at here
    cases here

/-- `map_zero_frame` of a page that has a page table and is not mapped. -/
theorem mapZeroFrame_succeeds {vm : VmState} {d v : Nat} {pd : PageDir} {avail : Availability}
    (dir : vm.dirs d = some pd) (user : UserPage (pageOf v)) (table : HasTable pd v)
    (here : stateOf pd (pageOf v) = .unmapped avail) :
    mapZeroFrame vm d v = (true, vm.setDir d (writePte pd v zeroFramePte)) := by
  obtain ⟨pte, found⟩ := find_of_tabled table here
  have high : ¬ pageOf v * pageSize < userPageStart := fun low => not_userPage.mp low user
  simp only [mapZeroFrame, mapPage, dir, high, ↓reduceIte, found]

/-- `map_new_frame` of such a page, with a frame in the pool. -/
theorem mapNewFrame_succeeds {vm : VmState} {d v : Nat} {pd : PageDir} {avail : Availability}
    (dir : vm.dirs d = some pd) (user : UserPage (pageOf v)) (table : HasTable pd v)
    (here : stateOf pd (pageOf v) = .unmapped avail) {frame : Nat} {rest : List Nat}
    (pool : vm.allocList = frame :: rest) :
    mapNewFrame vm d v = (true, { vm with allocList := rest }.setDir d
      (writePte pd v (newFramePte frame))) := by
  obtain ⟨pte, found⟩ := find_of_tabled table here
  have high : ¬ pageOf v * pageSize < userPageStart := fun low => not_userPage.mp low user
  simp only [mapNewFrame, mapPage, dir, high, ↓reduceIte, found, allocFrame, pool]

end OsKernel.Vm
