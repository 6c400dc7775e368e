/-
What a started program may write.

`change_access` goes over `.text`, `.rodata` and `.data` in this order, so that a page with
bytes of `.data` ends writable; but `.bss` is mapped only afterwards, and where it shares a
page with `.text` or `.rodata` it finds the page mapped and leaves it read-only. A store to
those bytes of `.bss` kills the program (`sections_writable_iff`).
-/

import OsKernel.Loader.Image
import OsKernel.Syscall.Pointer

namespace OsKernel.Loader

open OsKernel.Vm OsKernel.Memory OsKernel.Syscall Prog
open OsKernel.Pointer (Runs Goes EndsAs Framed goes_iff endsAs_store writablePage_iff)

/-! ### Page tables stay orderly -/

theorem orderly_exec {s : Kernel} (h : s.mem.vm.Orderly) (t : Nat) (a : Act) :
    (Kernel.exec t a s).1.mem.vm.Orderly := by
  cases a with
  | malloc size =>
      simp only [Kernel.exec]
      split
      · exact h
      · exact h.of_dirs rfl
  | constructPageDir =>
      have made := h.constructPageDir
      simp only [Kernel.exec]
      split <;> rename_i eq <;> rw [eq] at made <;> exact made
  | destructPageDir d => exact h.destructPageDir d
  | mapNewFrame d v => exact h.mapNewFrame d v
  | mapZeroFrame d v => exact h.mapZeroFrame d v
  | unmapFrame d v released =>
      rw [(exec_unmapFrame t s d v released).2.1]
      exact h.unmapFrame d v
  | setAccess d v access => exact h.setAccess d v access
  | setAvailability d v n =>
      rw [(exec_setAvailability t s d v n).2.1]
      exact h.setAvailability d v n
  | load v =>
      simp only [Kernel.exec, Kernel.userAccess]
      split
      · split <;> exact h
      · exact h
  | store v b =>
      simp only [Kernel.exec, Kernel.userAccess]
      split
      · split <;> exact h
      · exact h
  | clearPage d v =>
      simp only [Kernel.exec, Pointer.clearPage_vm]
      exact h
  | copyPage src dst v =>
      simp only [Kernel.exec, Mem.copyPage]
      split <;> exact h
  | place d v b =>
      simp only [Kernel.exec, kstore_vm]
      exact h
  | copyOut d v b =>
      have same := kstore_vm s d (v % virtualAddrEnd) b
      simp only [Kernel.exec]
      split <;> simp_all
  | setAllocations | newProcess | newThread | newImage | vanish | detach =>
      simp only [Kernel.exec]
      repeat' split
      all_goals exact h
  | _ => exact h

theorem orderly_machine {m : Machine} (h : m.kernel.mem.vm.Orderly) (a : KAct) :
    (Machine.exec a m).1.kernel.mem.vm.Orderly := by
  cases a with
  | ctl | look => exact h
  | mem a =>
      cases a with
      | copyPage src dst v =>
          simp only [Machine.exec, Machine.copyPage]
          split
          · exact h
          · split <;> exact h
      | _ => exact orderly_exec h _ _

/-! ### Stores of the program -/

/-- Every store of the running thread to the address is done, at once or after
`handle_page_fault` has given the page a frame, if it has one to give. -/
def Storable (m : Machine) (v : Nat) : Prop :=
  (∀ b, Pointer.Stores m.kernel m.running m.cr3 v b) ∨ m.kernel.mem.vm.allocList = [] ∧
    checkUserPage m.kernel.mem.vm m.cr3 v = some .zeroFrameMapped

/-- The page is mapped read-only. -/
def ReadOnly (m : Machine) (q : Nat) : Prop :=
  ∃ pte, m.kernel.mem.state m.cr3 q = some (.mapped pte) ∧ pte.rw = .readOnly

/-- A store to a page with a frame of its own looks at its read/write bit only. -/
theorem stores_framed {s : Kernel} {t v : Nat} {pr : Proc} {pd : PageDir} (runs : Runs s t pr pd)
    (orderly : s.mem.vm.Orderly) (addr : UserAddr v) {pte : Pte}
    (here : stateOf pd (pageOf v) = .mapped pte) (other : pte.pageAddr * pageSize ≠ zeroFrame)
    (b : UInt8) : Pointer.Stores s t pr.dir v b ↔ pte.rw = .readWrite := by
  refine (goes_iff runs orderly addr.page (fun _ => .inl ⟨pte, here, other⟩)
    (endsAs_store t b addr.lt)).trans ?_
  rw [Pointer.checkedPage, if_pos rfl, writablePage_iff runs.dir addr.page, here]
  simp [other]

/-- A store to a page on the zero frame needs a frame. -/
theorem stores_zero {s : Kernel} {t v : Nat} {pr : Proc} {pd : PageDir} (runs : Runs s t pr pd)
    (orderly : s.mem.vm.Orderly) (addr : UserAddr v) {pte : Pte}
    (here : stateOf pd (pageOf v) = .mapped pte) (zero : pte.pageAddr * pageSize = zeroFrame)
    (pool : s.mem.vm.allocList ≠ []) (b : UInt8) : Pointer.Stores s t pr.dir v b := by
  refine (goes_iff runs orderly addr.page (fun _ => .inr pool) (endsAs_store t b addr.lt)).mpr ?_
  rw [Pointer.checkedPage, if_pos rfl, writablePage_iff runs.dir addr.page]
  exact .inr ⟨pte, here, .inr zero⟩

section
variable {m m' : Machine} {p : Nat} {pr : Proc} {elf : Elf} {args : List (List UInt8)} {plan : Plan}

/-- The thread runs in the new directory. -/
theorem Started.runs (h : Started m p elf args m' plan) :
    ∃ pd, Runs m'.kernel m'.running { dir := m'.cr3, guest := false } pd ∧
      ∀ q x, m'.kernel.mem.state m'.cr3 q = some x → stateOf pd q = x := by
  obtain ⟨space, hd⟩ := Option.isSome_iff_exists.mp h.fits.live
  obtain ⟨pd, dir, rfl⟩ := Option.map_eq_some_iff.mp hd
  refine ⟨pd, ⟨h.proc, dir⟩, fun q x here => ?_⟩
  rw [state_of_space hd] at here
  exact Option.some.inj here

theorem Started.storable_own (h : Started m p elf args m' plan)
    (orderly : m'.kernel.mem.vm.Orderly) {v : Nat} (addr : UserAddr v) {bit : Access}
    (own : plan.sight (pageOf v) = .otherFrame bit) : Storable m' v ↔ bit = .readWrite := by
  obtain ⟨pd, runs, states⟩ := h.runs
  obtain ⟨pte, here, other, look⟩ := h.fits.own addr.page ⟨bit, own⟩
  rw [own, Sight.otherFrame.injEq] at look
  subst look
  have store := stores_framed runs orderly addr (states _ _ here) other
  constructor
  · rintro (all | ⟨-, seen⟩)
    · exact (store 0).mp (all 0)
    · have told := h.fits.told v
      rw [seen] at told
      obtain ⟨-, bit, zero⟩ := told
      rw [own] at zero
      cases zero
  · exact fun rw => .inl fun b => (store b).mpr rw

theorem Started.storable_zero (h : Started m p elf args m' plan)
    (orderly : m'.kernel.mem.vm.Orderly) {v : Nat} (addr : UserAddr v) {bit : Access}
    (zero : plan.sight (pageOf v) = .zeroFrame bit) : Storable m' v := by
  obtain ⟨pd, runs, states⟩ := h.runs
  obtain ⟨x, here, seen⟩ := h.fits.state addr.page
  rw [zero] at seen
  rcases sight_cases x with ⟨_, -, look⟩ | ⟨pte, rfl, onZero, -⟩ | ⟨pte, -, -, look⟩
  · rw [look] at seen
    cases seen
  · by_cases pool : m'.kernel.mem.vm.allocList = []
    · refine .inr ⟨pool, ?_⟩
      rcases checkUserPage_cases (abs_space_some runs.dir) addr.page with ⟨_, -, all⟩ |
        ⟨_, -, state⟩ | ⟨_, seen, -, -⟩ | ⟨pte', -, state, other⟩
      · have state := (states _ _ here).symm.trans (all _ rfl)
        cases state
      · cases (states _ _ here).symm.trans state
      · exact seen
      · cases (states _ _ here).symm.trans state
        exact absurd onZero other
    · exact .inl fun b => stores_zero runs orderly addr (states _ _ here) onZero pool b
  · rw [look] at seen
    cases seen

/-! ### The sections -/

/-- What a program may do with its sections. -/
structure SectionAccess (image : Image) (m : Machine) : Prop where
  writable : ∀ range, range = span image.dat ∨ range = (image.bssStart, image.bssLen) →
    ∀ v, InSpan range v → Storable m v
  readOnly : ∀ q, Spans (span image.txt) q ∨ Spans (span image.rodat) q →
    ¬ Spans (span image.dat) q → ¬ Spans (image.bssStart, image.bssLen) q → ReadOnly m q

/-- Where `.bss` shares a page with `.text` or `.rodata`, it does so with `.data` as well. -/
def BssApart (image : Image) : Prop :=
  ∀ q, Spans (image.bssStart, image.bssLen) q →
    Spans (span image.txt) q ∨ Spans (span image.rodat) q → Spans (span image.dat) q

/-- After a successful `load_executable` of an image that is not a guest, a page of code that
holds no data is read-only; every byte of `.data` and `.bss` can be stored to just where no
page of `.bss` is one of code that holds no byte of `.data`. -/
theorem sections_writable_iff (caller : Caller m p pr) (words : Words elf.toImage)
    {name : List UInt8} (user : elf.guest = false)
    (ran : m.eval (loadExecutable (some elf) name args) = (m', some true)) :
    SectionAccess elf.toImage m' ↔ BssApart elf.toImage := by
  obtain ⟨plan, h⟩ := started caller user ran
  obtain ⟨mid, placement⟩ := h.planned.placement words
  have loaded := placement.loaded
  have orderly : m'.kernel.mem.vm.Orderly := by
    have keeps : (m.eval (loadExecutable (some elf) name args)).1.kernel.mem.vm.Orderly :=
      eval_keeps (P := fun m : Machine => m.kernel.mem.vm.Orderly)
        (fun a _ h => orderly_machine h a) _ caller.orderly
    rwa [ran] at keeps
  have datFile : elf.dat ∈ files elf.toImage := by simp [files]
  have txtFile : elf.txt ∈ files elf.toImage := by simp [files]
  have rodatFile : elf.rodat ∈ files elf.toImage := by simp [files]
  -- an address of a section is one of the user
  have addr : ∀ range ∈ ranges elf.toImage, ∀ v, InSpan range v → UserAddr v := by
    intro range mem v inside
    have covers := covers_iff.mpr ⟨range, mem, v, inside, rfl⟩
    exact ⟨Nat.lt_of_lt_of_le inside.2 (placement.fits range mem), (loaded.fresh _ covers).1⟩
  have code : ∀ {q}, Spans (span elf.txt) q ∨ Spans (span elf.rodat) q →
      ¬ Spans (span elf.dat) q → plan.sight q = .otherFrame .readOnly := fun spans noDat =>
    loaded.code _ (mt touches_iff.mp noDat)
      (spans.imp touches_iff.mpr touches_iff.mpr)
  constructor
  · intro access q spans shared
    by_contra noDat
    obtain ⟨v, inside, rfl⟩ := spans
    have storable := access.writable _ (.inr rfl) v inside
    rw [h.storable_own orderly (addr _ (bss_mem _) v inside) (code shared noDat)] at storable
    cases storable
  · intro apart
    refine ⟨fun range which v inside => ?_, fun q spans noDat noBss => ?_⟩
    · by_cases dat : Spans (span elf.dat) (pageOf v)
      · have mem : range ∈ ranges elf.toImage := by
          rcases which with rfl | rfl
          · exact span_mem datFile
          · exact bss_mem _
        exact (h.storable_own orderly (addr range mem v inside)
          (loaded.dat _ (touches_iff.mpr dat))).mpr rfl
      rcases which with rfl | rfl
      · exact absurd ⟨v, inside, rfl⟩ dat
      · have spans : Spans (elf.bssStart, elf.bssLen) (pageOf v) := ⟨v, inside, rfl⟩
        have alone := mt (apart _ spans) dat
        rw [not_or] at alone
        refine h.storable_zero orderly (addr _ (bss_mem _) v inside) (loaded.bss _ ?_ ?_ ?_ ?_)
        · exact mt touches_iff.mp dat
        · exact mt touches_iff.mp alone.1
        · exact mt touches_iff.mp alone.2
        · exact spans_iff.mpr spans
    · have user : UserPage q := by
        refine (loaded.fresh q ?_).1
        rcases spans with spans | spans
        · exact .inl (touches_iff.mpr spans)
        · exact .inr (.inl (touches_iff.mpr spans))
      obtain ⟨pte, here, -, look⟩ := h.fits.own user ⟨_, code spans noDat⟩
      rw [code spans noDat, Sight.otherFrame.injEq] at look
      exact ⟨pte, here, look.symm⟩

theorem sections_writable_iff_bss : ∃ m m', Syscall.boot 4110 (fun _ => true) (fun _ => 0) emptyCtl =
    some m ∧ m.eval (loadExecutable (some bssElf) [65] []) = (m', some true) ∧
      (SectionAccess bssElf.toImage m' ↔ BssApart bssElf.toImage) := by
  have ran : (Syscall.boot 4110 (fun _ => true) (fun _ => 0) emptyCtl).map (fun m =>
      (m.eval (loadExecutable (some bssElf) [65] [])).2) = some (some true) := by
    decide +kernel
  obtain ⟨m, started, loaded⟩ := Option.map_eq_some_iff.mp ran
  obtain ⟨pr, caller⟩ := boot_caller (by decide) started
  exact ⟨m, _, started, Prod.ext rfl loaded,
    sections_writable_iff caller words_bssElf rfl (Prod.ext rfl loaded)⟩

/-- A byte of `.text` and a byte of `.bss` right after it. -/
def sharedElf : Elf := { bssElf with bssStart := userMemStart + 1 }

/-- The store to `.bss` kills the program. -/
theorem bss_not_writable : ∃ m m', Syscall.boot 4110 (fun _ => true) (fun _ => 0) emptyCtl = some m ∧
    m.eval (loadExecutable (some sharedElf) [65] []) = (m', some true) ∧
      ¬ SectionAccess sharedElf.toImage m' := by
  have ran : (Syscall.boot 4110 (fun _ => true) (fun _ => 0) emptyCtl).map (fun m =>
      match m.eval (loadExecutable (some sharedElf) [65] []) with
      | (m', r) => (r, completes (m'.kernel.exec m'.running (.store (userMemStart + 1) 0)).2,
          [true, false].all fun present => (m'.kernel.eval m'.running
            (handlePageFault m'.cr3 present true (userMemStart + 1))).2.isNone,
          decide (checkUserPage m'.kernel.mem.vm m'.cr3 (userMemStart + 1) =
            some .zeroFrameMapped))) = some (some true, false, true, false) := by
    decide +kernel
  obtain ⟨m, started, run⟩ := Option.map_eq_some_iff.mp ran
  rcases loaded : m.eval (loadExecutable (some sharedElf) [65] []) with ⟨m', r⟩
  rw [loaded] at run
  simp only [Prod.mk.injEq] at run
  obtain ⟨rfl, fault, dies, seen⟩ := run
  refine ⟨m, m', started, loaded, fun access => ?_⟩
  rcases access.writable _ (.inr rfl) (userMemStart + 1) ⟨Nat.le_refl _, Nat.lt_succ_self _⟩ with
    all | ⟨-, zero⟩
  · rcases all 0 with done | ⟨present, s', -, back, -⟩
    · dsimp only at done
      rw [done] at fault
      cases fault
    · have gone := List.all_eq_true.mp dies present (by cases present <;> simp)
      rw [back] at gone
      cases gone
  · exact of_decide_eq_false seen zero

end

end OsKernel.Loader
