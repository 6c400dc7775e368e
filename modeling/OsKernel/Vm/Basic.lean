/-
Pages, page tables and page directories (`kern/inc/vm.h`, `find_frame` of
`kern/vm.c`).

A page directory is modelled with its page tables inside: a present PDE carries
the table its `pt_addr` points to, a PDE that is not present carries the
available bits that stand for all its PTEs. The kernel reaches a table only
through the one PDE that was given its fresh block, so nothing depends on the
address. The bits the kernel never writes (`write_through`, `pcd`, `accessed`,
`dirty`, `pat`, `ps`) are left out.

Virtual addresses are natural numbers and every function takes them as the
`uint32_t` its parameter is, modulo `2 ^ 32`.

`stateOf` reads a directory page by page and is what the rest of the
development reasons with: creating a page table does not change it
(`stateOf_createTable`), and writing a PTE changes it at one page
(`stateOf_writePte`).
-/

import Mathlib.Logic.Function.Basic
import Mathlib.Data.Nat.Basic
import Mathlib.Tactic.Common

namespace OsKernel.Vm

/-- `PAGE_SIZE`, that is `1 << PAGE_SHIFT` with `PAGE_SHIFT` 12. -/
def pageSize : Nat := 4096

def userMemStart : Nat := 0x01000000

/-- `VIRTUAL_ADDR_END`: how large the virtual address space is. -/
def virtualAddrEnd : Nat := 4294967296

/-- `USER_PAGE_START`: the first page of the user space, as an address. -/
def userPageStart : Nat := (userMemStart + pageSize - 1) / pageSize * pageSize

/-- `PTE_COUNT`: a page over `sizeof(pte_t)`. -/
def pteCount : Nat := pageSize / 4

def pdeCount : Nat := virtualAddrEnd / pageSize / pteCount

/-- `ZERO_FRAME`: the frame shared by all pages that were only read. -/
def zeroFrame : Nat := userPageStart

/-- `USER_PAGE_START / PAGE_SIZE`, computed in `construct_page_dir`. -/
def kernelPageCount : Nat := userPageStart / pageSize

def kernelPageTableCount : Nat := (kernelPageCount + pteCount - 1) / pteCount

/-- The read/write bit. -/
inductive Access where
  | readOnly
  | readWrite
deriving DecidableEq, Repr

/-- `READ_ONLY` and `READ_WRITE`; any other value is refused. -/
def Access.ofNat? : Nat → Option Access
  | 0 => some .readOnly
  | 1 => some .readWrite
  | _ => none

def Access.toNat : Access → Nat
  | .readOnly => 0
  | .readWrite => 1

/-- What the available bits of an entry that is not present say: whether the
page may be given a frame on demand. -/
inductive Availability where
  | unavailable
  | available
deriving DecidableEq, Repr

/-- `PAGE_UNAVAILABLE` and `PAGE_AVAILABLE`; any other value is refused. -/
def Availability.ofNat? : Nat → Option Availability
  | 0 => some .unavailable
  | 1 => some .available
  | _ => none

def Availability.toNat : Availability → Nat
  | .unavailable => 0
  | .available => 1

/-- `pte_t`; the defaults are those of a compound literal, all bits zero. -/
structure Pte where
  p : Bool := false
  rw : Access := .readOnly
  us : Bool := false
  g : Bool := false
  available : Availability := .unavailable
  pageAddr : Nat := 0
deriving DecidableEq, Repr

abbrev PageTable := Nat → Pte

/-- `pde_t` with the table behind `pt_addr`. -/
inductive Pde where
  | absent (avail : Availability)
  | present (rw : Access) (us g : Bool) (pt : PageTable)

abbrev PageDir := Nat → Pde

/-- The number of the page that holds a virtual address. -/
def pageOf (vAddr : Nat) : Nat := vAddr % virtualAddrEnd / pageSize

def pdeIdx (vAddr : Nat) : Nat := pageOf vAddr / pteCount

def pteIdx (vAddr : Nat) : Nat := pageOf vAddr % pteCount

/-- `lookup_result_t` with the entry the pointer holders are given. A null page
directory is dealt with by the callers. -/
inductive LookupResult where
  | nonpresentPde (avail : Availability)
  | nonpresentPte (pte : Pte)
  | physicalFrameMapped (pte : Pte)

def findFrame (pd : PageDir) (vAddr : Nat) : LookupResult :=
  match pd (pdeIdx vAddr) with
  | .absent avail => .nonpresentPde avail
  | .present _ _ _ pt =>
      if (pt (pteIdx vAddr)).p then .physicalFrameMapped (pt (pteIdx vAddr))
      else .nonpresentPte (pt (pteIdx vAddr))

/-- A fresh page table: every PTE inherits the available bits of the PDE. -/
def inheritTable (avail : Availability) : PageTable := fun _ => { available := avail }

/-- The page table that `map_new_frame`, `map_zero_frame` and
`set_availability` put behind a PDE that is not present. -/
def createTable (pd : PageDir) (vAddr : Nat) : PageDir :=
  match pd (pdeIdx vAddr) with
  | .absent avail =>
      Function.update pd (pdeIdx vAddr) (.present .readWrite true false (inheritTable avail))
  | .present _ _ _ _ => pd

/-- `*pte_ptr = pte`, where `pte_ptr` points into the table of a present PDE. -/
def writePte (pd : PageDir) (vAddr : Nat) (pte : Pte) : PageDir :=
  match pd (pdeIdx vAddr) with
  | .absent _ => pd
  | .present rw us g pt => Function.update pd (pdeIdx vAddr)
      (.present rw us g (Function.update pt (pteIdx vAddr) pte))

/-! ### The directory read page by page -/

/-- What a directory says about one page. -/
inductive PageState where
  | unmapped (avail : Availability)
  | mapped (pte : Pte)
deriving DecidableEq, Repr

/-- A PTE as it stands for its page. -/
def Pte.state (pte : Pte) : PageState :=
  if pte.p then .mapped pte else .unmapped pte.available

/-- The state of a page: the available bits of a PDE that is not present stand
for all its pages. -/
def stateOf (pd : PageDir) (page : Nat) : PageState :=
  match pd (page / pteCount) with
  | .absent avail => .unmapped avail
  | .present _ _ _ pt => (pt (page % pteCount)).state

/-- The frame a page is mapped to, as a physical address. -/
def PageState.frame? : PageState → Option Nat
  | .unmapped _ => none
  | .mapped pte => some (pte.pageAddr * pageSize)

def frameOf (pd : PageDir) (page : Nat) : Option Nat := (stateOf pd page).frame?

/-- A page of the user space. -/
def UserPage (page : Nat) : Prop := kernelPageCount ≤ page ∧ page < virtualAddrEnd / pageSize

instance (page : Nat) : Decidable (UserPage page) := by
  unfold UserPage; infer_instance

theorem pageOf_lt (vAddr : Nat) : pageOf vAddr < virtualAddrEnd / pageSize := by
  simp only [pageOf, virtualAddrEnd, pageSize]
  omega

/-- The test `page < USER_PAGE_START` of the source, read on page numbers. -/
theorem userPage_pageOf {vAddr : Nat} :
    UserPage (pageOf vAddr) ↔ userPageStart ≤ pageOf vAddr * pageSize := by
  have := pageOf_lt vAddr
  simp only [UserPage, kernelPageCount, userPageStart, userMemStart, pageSize] at *
  omega

theorem userPage_of_high {v : Nat} (low : userMemStart ≤ v) (high : v < virtualAddrEnd) :
    UserPage (pageOf v) := by
  simp only [UserPage, kernelPageCount, userPageStart, pageOf, userMemStart, pageSize,
    virtualAddrEnd] at *
  omega

/-- The state of a page is read off the entry of its directory. -/
theorem stateOf_absent {pd : PageDir} {vAddr : Nat} {avail : Availability}
    (entry : pd (pdeIdx vAddr) = .absent avail) : stateOf pd (pageOf vAddr) = .unmapped avail := by
  unfold stateOf
  rw [show pageOf vAddr / pteCount = pdeIdx vAddr from rfl, entry]

theorem stateOf_present {pd : PageDir} {vAddr : Nat} {rw : Access} {us g : Bool} {pt : PageTable}
    (entry : pd (pdeIdx vAddr) = .present rw us g pt) :
    stateOf pd (pageOf vAddr) = (pt (pteIdx vAddr)).state := by
  unfold stateOf
  rw [show pageOf vAddr / pteCount = pdeIdx vAddr from rfl, entry]
  rfl

/-- `find_frame` tells apart the two ways of being unmapped; both carry the
state of the page. -/
theorem stateOf_pageOf (pd : PageDir) (vAddr : Nat) :
    stateOf pd (pageOf vAddr) = match findFrame pd vAddr with
      | .nonpresentPde avail => .unmapped avail
      | .nonpresentPte pte => .unmapped pte.available
      | .physicalFrameMapped pte => .mapped pte := by
  unfold stateOf findFrame
  change (match pd (pdeIdx vAddr) with
    | .absent avail => _
    | .present _ _ _ pt => (pt (pteIdx vAddr)).state) = _
  cases pd (pdeIdx vAddr) with
  | absent avail => rfl
  | present rw us g pt =>
      cases h : (pt (pteIdx vAddr)).p <;> simp [Pte.state, h]

/-- Creating a page table changes no page: its PTEs inherit the available bits. -/
@[simp] theorem stateOf_createTable (pd : PageDir) (vAddr : Nat) :
    stateOf (createTable pd vAddr) = stateOf pd := by
  funext page
  unfold createTable
  cases h : pd (pdeIdx vAddr) with
  | present rw us g pt => rfl
  | absent avail =>
      by_cases same : page / pteCount = pdeIdx vAddr
      · simp [stateOf, same, h, inheritTable, Pte.state]
      · simp [stateOf, Function.update_of_ne same]

/-- The PDE of a page is present. -/
def HasTable (pd : PageDir) (vAddr : Nat) : Prop :=
  ∃ rw us g pt, pd (pdeIdx vAddr) = .present rw us g pt

theorem hasTable_createTable (pd : PageDir) (vAddr : Nat) :
    HasTable (createTable pd vAddr) vAddr := by
  unfold HasTable createTable
  cases h : pd (pdeIdx vAddr) with
  | present rw us g pt => exact ⟨rw, us, g, pt, h⟩
  | absent avail => exact ⟨_, _, _, _, Function.update_self ..⟩

theorem page_eq_of_idx {page vAddr : Nat} (hd : page / pteCount = pdeIdx vAddr)
    (ht : page % pteCount = pteIdx vAddr) : page = pageOf vAddr := by
  rw [← Nat.div_add_mod page pteCount, hd, ht]
  exact Nat.div_add_mod (pageOf vAddr) pteCount

/-- Writing a PTE changes the state of its page and of no other. -/
theorem stateOf_writePte {pd : PageDir} {vAddr : Nat} (table : HasTable pd vAddr) (pte : Pte) :
    stateOf (writePte pd vAddr pte) = Function.update (stateOf pd) (pageOf vAddr) pte.state := by
  obtain ⟨rw, us, g, pt, h⟩ := table
  funext page
  by_cases hd : page / pteCount = pdeIdx vAddr
  · by_cases ht : page % pteCount = pteIdx vAddr
    · have := page_eq_of_idx hd ht
      subst this
      simp [stateOf, writePte, h, hd, ht]
    · have ne : page ≠ pageOf vAddr := fun eq => ht (by rw [eq]; rfl)
      simp [stateOf, writePte, h, hd, Function.update_of_ne ne, Function.update_of_ne ht]
  · have ne : page ≠ pageOf vAddr := fun eq => hd (by rw [eq]; rfl)
    simp [stateOf, writePte, h, Function.update_of_ne ne, Function.update_of_ne hd]

/-- The three outcomes of `find_frame` and what each says about the page. -/
theorem findFrame_cases (pd : PageDir) (vAddr : Nat) :
    (∃ avail, findFrame pd vAddr = .nonpresentPde avail ∧
        stateOf pd (pageOf vAddr) = .unmapped avail) ∨
      (∃ pte, findFrame pd vAddr = .nonpresentPte pte ∧ pte.p = false ∧ HasTable pd vAddr ∧
        stateOf pd (pageOf vAddr) = .unmapped pte.available) ∨
      ∃ pte, findFrame pd vAddr = .physicalFrameMapped pte ∧ pte.p = true ∧ HasTable pd vAddr ∧
        stateOf pd (pageOf vAddr) = .mapped pte := by
  have state := stateOf_pageOf pd vAddr
  cases h : pd (pdeIdx vAddr) with
  | absent avail =>
      have found : findFrame pd vAddr = .nonpresentPde avail := by simp [findFrame, h]
      rw [found] at state
      exact .inl ⟨avail, found, state⟩
  | present rw us g pt =>
      have table : HasTable pd vAddr := ⟨rw, us, g, pt, h⟩
      cases hp : (pt (pteIdx vAddr)).p with
      | false =>
          have found : findFrame pd vAddr = .nonpresentPte (pt (pteIdx vAddr)) := by
            simp [findFrame, h, hp]
          rw [found] at state
          exact .inr (.inl ⟨_, found, hp, table, state⟩)
      | true =>
          have found : findFrame pd vAddr = .physicalFrameMapped (pt (pteIdx vAddr)) := by
            simp [findFrame, h, hp]
          rw [found] at state
          exact .inr (.inr ⟨_, found, hp, table, state⟩)

end OsKernel.Vm
