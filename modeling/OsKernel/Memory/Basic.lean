/-
Physical memory behind the page directories, and the bytes a directory shows.

`Mem` is the state of the virtual memory module together with the contents of
physical memory. `translate` is what the processor does with a user-mode access
(present, U/S and R/W bits, no stale TLB entry), `ktranslate` what it does with a
supervisor access: the kernel never sets `CR0.WP`, so the R/W bit is ignored.

`byteAt` reads a directory as a flat memory: the byte of the frame where a page
is mapped, and 0 where it is not. Demand paging is invisible to it. One lemma
per operation says that it changes one directory only (`Confined`) and what it
does to the bytes of that directory; all of them rest on the exclusiveness of
frames.
-/

import OsKernel.Vm.Exclusive

namespace OsKernel.Memory

open OsKernel.Vm

structure Mem where
  vm : VmState
  phys : Nat → UInt8

/-- The physical address of a user-mode access, if the processor permits it. -/
def translate (pd : PageDir) (vAddr : Nat) (write : Bool) : Option Nat :=
  match pd (pdeIdx vAddr) with
  | .absent _ => none
  | .present rw us _ pt =>
      let pte := pt (pteIdx vAddr)
      if pte.p ∧ us ∧ pte.us ∧ (write → rw = .readWrite ∧ pte.rw = .readWrite) then
        some (pte.pageAddr * pageSize + vAddr % pageSize)
      else none

/-- The P bit of the error code of a page fault. -/
def faultPresent (pd : PageDir) (vAddr : Nat) : Bool :=
  match findFrame pd vAddr with
  | .physicalFrameMapped _ => true
  | _ => false

/-- The physical address of a supervisor access. -/
def ktranslate (pd : PageDir) (vAddr : Nat) : Option Nat :=
  (frameOf pd (pageOf vAddr)).map (· + vAddr % pageSize)

/-- The frame that a directory maps an address to. -/
def Mem.frameAt (m : Mem) (d vAddr : Nat) : Option Nat :=
  (m.vm.dirs d).bind fun pd => frameOf pd (pageOf vAddr)

/-- Fill a frame with the given bytes. -/
def Mem.fill (m : Mem) (frame : Nat) (bytes : Nat → UInt8) : Mem :=
  { m with phys := fun a => if frame ≤ a ∧ a < frame + pageSize then bytes (a - frame) else m.phys a }

/-- The same contents behind other page tables. -/
def Mem.withVm (m : Mem) (vm : VmState) : Mem := { m with vm := vm }

def Mem.put (m : Mem) (a : Nat) (b : UInt8) : Mem := { m with phys := Function.update m.phys a b }

/-- `memset((void *)page, 0, PAGE_SIZE)` for the page of an address. It is only
called right after the page was mapped. -/
def Mem.clearPage (m : Mem) (d vAddr : Nat) : Mem :=
  match m.frameAt d vAddr with
  | none => m
  | some f => m.fill f fun _ => 0

/-- The two `memmove`s of a page of one directory to the same page of another. -/
def Mem.copyPage (m : Mem) (src dst vAddr : Nat) : Mem :=
  match m.frameAt src vAddr, m.frameAt dst vAddr with
  | some f, some f' => m.fill f' fun i => m.phys (f + i)
  | _, _ => m

/-- A store in kernel mode, or nothing when the page is not present. -/
def Mem.kstore (m : Mem) (d vAddr : Nat) (b : UInt8) : Option Mem :=
  ((m.vm.dirs d).bind fun pd => ktranslate pd vAddr).map fun a => m.put a b

/-- The byte a page shows at an offset. -/
def byteOf (phys : Nat → UInt8) (off : Nat) : PageState → UInt8
  | .mapped pte => phys (pte.pageAddr * pageSize + off)
  | .unmapped _ => 0

/-- A directory read as a flat memory. -/
def Mem.byteAt (m : Mem) (d vAddr : Nat) : UInt8 :=
  match m.vm.abs.space d with
  | none => 0
  | some space => byteOf m.phys (vAddr % pageSize) (space (pageOf vAddr))

/-! ### What holds of every memory -/

/-- Frames are exclusive, the zero frame is mapped read-only, and it is clean. -/
structure Mem.Inv (m : Mem) : Prop where
  wf : m.vm.abs.Wf
  zeroReadOnly : ∀ d space page pte, m.vm.abs.space d = some space → UserPage page →
    space page = .mapped pte → pte.pageAddr * pageSize = zeroFrame → pte.rw = .readOnly
  zeroClean : ∀ off < pageSize, m.phys (zeroFrame + off) = 0

/-- An address of the user space. -/
structure UserAddr (vAddr : Nat) : Prop where
  lt : vAddr < virtualAddrEnd
  page : UserPage (pageOf vAddr)

/-- The memory changed in one directory only and kept the invariant. -/
structure Confined (d : Nat) (m m' : Mem) : Prop where
  inv : m'.Inv
  next : m.vm.nextDir ≤ m'.vm.nextDir
  space : ∀ e, e ≠ d → m'.vm.abs.space e = m.vm.abs.space e
  bytes : ∀ e w, e ≠ d → UserAddr w → m'.byteAt e w = m.byteAt e w

/-- The directory shows the same bytes as before. -/
def SameBytes (d : Nat) (m m' : Mem) : Prop := ∀ w, UserAddr w → m'.byteAt d w = m.byteAt d w

/-- The directory shows the same bytes as before but for one page. -/
def SameBut (d page : Nat) (m m' : Mem) : Prop :=
  ∀ w, UserAddr w → pageOf w ≠ page → m'.byteAt d w = m.byteAt d w

theorem byteAt_of_space {m : Mem} {d : Nat} {space : Nat → PageState}
    (hd : m.vm.abs.space d = some space) (w : Nat) :
    m.byteAt d w = byteOf m.phys (w % pageSize) (space (pageOf w)) := by
  simp [Mem.byteAt, hd]

/-- A directory with the same pages as before shows the same bytes. -/
theorem byteAt_withVm {m : Mem} {vm : VmState} {d : Nat}
    (space : vm.abs.space d = m.vm.abs.space d) (w : Nat) :
    (m.withVm vm).byteAt d w = m.byteAt d w := by
  simp only [Mem.byteAt, Mem.withVm, space]

theorem maps_of_state {s : Spaces} {d page : Nat} {space : Nat → PageState} {pte : Pte}
    (hd : s.space d = some space) (hp : UserPage page) (state : space page = .mapped pte) :
    s.Maps d page (pte.pageAddr * pageSize) :=
  ⟨hp, space, hd, by simp [state, PageState.frame?]⟩

/-! ### The processor -/

/-- A user-mode access goes to a page that is mapped with the U/S bit, and to
store with the R/W bit as well. -/
theorem translate_spec {pd : PageDir} {vAddr a : Nat} {write : Bool}
    (h : translate pd vAddr write = some a) :
    ∃ pte, stateOf pd (pageOf vAddr) = .mapped pte ∧ pte.us = true ∧
      (write = true → pte.rw = .readWrite) ∧ a = pte.pageAddr * pageSize + vAddr % pageSize := by
  have state : stateOf pd (pageOf vAddr) = match pd (pdeIdx vAddr) with
      | .absent avail => .unmapped avail
      | .present _ _ _ pt => (pt (pteIdx vAddr)).state := rfl
  unfold translate at h
  cases hd : pd (pdeIdx vAddr) with
  | absent avail => rw [hd] at h; cases h
  | present rw us g pt =>
      simp only [hd] at h state
      split at h
      · rename_i permitted
        obtain ⟨present, -, user, write⟩ := permitted
        cases h
        exact ⟨pt (pteIdx vAddr), by simp [state, Pte.state, present], user,
          fun hw => (write hw).2, rfl⟩
      · cases h

/-- A supervisor access goes to any page that is mapped. -/
theorem ktranslate_spec {pd : PageDir} {vAddr a : Nat} (h : ktranslate pd vAddr = some a) :
    ∃ pte, stateOf pd (pageOf vAddr) = .mapped pte ∧
      a = pte.pageAddr * pageSize + vAddr % pageSize := by
  unfold ktranslate frameOf at h
  cases state : stateOf pd (pageOf vAddr) with
  | unmapped avail => simp [state, PageState.frame?] at h
  | mapped pte =>
      simp only [state, PageState.frame?, Option.map_some, Option.some.injEq] at h
      exact ⟨pte, rfl, h.symm⟩

/-! ### Writing to a frame -/

theorem off_lt (vAddr : Nat) : vAddr % pageSize < pageSize := Nat.mod_lt _ (by decide)

/-- Two frames that share a byte are the same frame. -/
theorem frame_eq_of_byte {a b off : Nat} (hoff : off < pageSize)
    (ge : b * pageSize ≤ a * pageSize + off) (lt : a * pageSize + off < b * pageSize + pageSize) :
    a = b := by
  simp only [pageSize] at *
  omega

theorem vAddr_eq_of_page {v w : Nat} (hv : v < virtualAddrEnd) (hw : w < virtualAddrEnd)
    (page : pageOf v = pageOf w) (off : v % pageSize = w % pageSize) : v = w := by
  simp only [pageOf, pageSize, virtualAddrEnd] at *
  omega

/-- A frame filled is seen in the pages that are mapped to it. -/
theorem byteOf_fill (m : Mem) (n : Nat) (bytes : Nat → UInt8) {off : Nat} (hoff : off < pageSize)
    (state : PageState) : byteOf (m.fill (n * pageSize) bytes).phys off state =
      if state.frame? = some (n * pageSize) then bytes off else byteOf m.phys off state := by
  cases state with
  | unmapped avail => simp [byteOf, PageState.frame?]
  | mapped pte =>
      simp only [byteOf, Mem.fill, PageState.frame?, Option.some.injEq]
      by_cases same : pte.pageAddr * pageSize = n * pageSize
      · rw [if_pos same, same, if_pos ⟨by omega, by omega⟩, Nat.add_sub_cancel_left]
      · rw [if_neg same, if_neg]
        rintro ⟨ge, lt⟩
        exact same (by rw [frame_eq_of_byte hoff ge lt])

/-- A frame other than the zero frame that a page is mapped to is seen in that
page only. -/
theorem Mem.Inv.fill {m : Mem} (inv : m.Inv) {d page : Nat} {space : Nat → PageState} {pte : Pte}
    (hd : m.vm.abs.space d = some space) (hp : UserPage page) (state : space page = .mapped pte)
    (nz : pte.pageAddr * pageSize ≠ zeroFrame) (bytes : Nat → UInt8) :
    let m' := m.fill (pte.pageAddr * pageSize) bytes
    Confined d m m' ∧ ∀ w, UserAddr w →
      m'.byteAt d w = if pageOf w = page then bytes (w % pageSize) else m.byteAt d w := by
  have maps := maps_of_state hd hp state
  have seen : ∀ e w, UserAddr w → (m.fill (pte.pageAddr * pageSize) bytes).byteAt e w =
      if e = d ∧ pageOf w = page then bytes (w % pageSize) else m.byteAt e w := by
    intro e w user
    cases he : m.vm.abs.space e with
    | none =>
        have ne : ¬ (e = d ∧ pageOf w = page) := by rintro ⟨rfl, -⟩; simp [hd] at he
        rw [if_neg ne, Mem.byteAt, Mem.byteAt]
        change (match m.vm.abs.space e with | none => _ | some space => _) = _
        simp [he]
    | some space' =>
        rw [byteAt_of_space (m := m) he, byteAt_of_space (m := m.fill _ _) he,
          byteOf_fill m _ bytes (off_lt w)]
        refine if_congr ⟨fun hf => ?_, ?_⟩ rfl rfl
        · exact inv.wf.injective e d _ _ _ ⟨user.page, space', he, hf⟩ maps nz
        · rintro ⟨rfl, rfl⟩
          rw [hd, Option.some.injEq] at he
          simp [← he, state, PageState.frame?]
  refine ⟨⟨⟨inv.wf, inv.zeroReadOnly, fun off hoff => ?_⟩, le_refl _, fun _ _ => rfl, ?_⟩, ?_⟩
  · have : ¬ (pte.pageAddr * pageSize ≤ zeroFrame + off ∧
        zeroFrame + off < pte.pageAddr * pageSize + pageSize) := by
      rintro ⟨ge, lt⟩
      refine nz (by rw [← frame_eq_of_byte (a := zeroFrame / pageSize) hoff ge lt]; rfl)
    simp only [Mem.fill, if_neg this]
    exact inv.zeroClean off hoff
  · intro e w ne user
    rw [seen e w user, if_neg (fun h => ne h.1)]
  · intro w user
    rw [seen d w user]
    simp

theorem put_eq_fill (m : Mem) (f : Nat) {off : Nat} (hoff : off < pageSize) (b : UInt8) :
    m.put (f + off) b = m.fill f fun i => if i = off then b else m.phys (f + i) := by
  simp only [Mem.put, Mem.fill, Mem.mk.injEq, true_and]
  funext a
  by_cases same : a = f + off
  · subst same
    simp [hoff]
  · rw [Function.update_of_ne same]
    split
    · rename_i inside
      rw [if_neg (by omega), Nat.add_sub_cancel' inside.1]
    · rfl

/-- A byte put into a frame of one page is seen at one address. -/
theorem Mem.Inv.put {m : Mem} (inv : m.Inv) {d v : Nat} {space : Nat → PageState} {pte : Pte}
    (hd : m.vm.abs.space d = some space) (hv : UserAddr v)
    (state : space (pageOf v) = .mapped pte) (nz : pte.pageAddr * pageSize ≠ zeroFrame)
    (b : UInt8) :
    let m' := m.put (pte.pageAddr * pageSize + v % pageSize) b
    Confined d m m' ∧ ∀ w, UserAddr w → m'.byteAt d w = if w = v then b else m.byteAt d w := by
  rw [put_eq_fill m _ (off_lt v)]
  obtain ⟨confined, bytes⟩ := inv.fill hd hv.page state nz fun i =>
    if i = v % pageSize then b else m.phys (pte.pageAddr * pageSize + i)
  refine ⟨confined, fun w user => ?_⟩
  rw [bytes w user]
  by_cases page : pageOf w = pageOf v
  · rw [if_pos page, byteAt_of_space hd, page, state]
    refine if_congr ⟨vAddr_eq_of_page user.lt hv.lt page, fun h => by rw [h]⟩ rfl rfl
  · rw [if_neg page, if_neg (fun h => page (by rw [h]))]

/-- Zeros put into the zero frame change nothing. -/
theorem Mem.Inv.fill_zero {m : Mem} (inv : m.Inv) : (m.fill zeroFrame fun _ => 0) = m := by
  unfold Mem.fill
  congr 1
  funext a
  split
  · rename_i inside
    rw [← inv.zeroClean (a - zeroFrame) (by omega), Nat.add_sub_cancel' inside.1]
  · rfl

theorem Mem.Inv.put_zero {m : Mem} (inv : m.Inv) {off : Nat} (hoff : off < pageSize) :
    m.put (zeroFrame + off) 0 = m := by
  have : m.phys (zeroFrame + off) = 0 := inv.zeroClean off hoff
  rw [Mem.put, ← this, Function.update_eq_self]

/-- A byte put into a frame of the kernel is seen in no user page. -/
theorem Mem.Inv.put_kernel {m : Mem} (inv : m.Inv) (d : Nat) {a : Nat} (ha : a < userPageStart)
    (b : UInt8) : Confined d m (m.put a b) ∧ SameBytes d m (m.put a b) := by
  have seen : ∀ e w, UserAddr w → (m.put a b).byteAt e w = m.byteAt e w := by
    intro e w user
    cases he : m.vm.abs.space e with
    | none =>
        rw [Mem.byteAt, Mem.byteAt]
        change (match m.vm.abs.space e with | none => _ | some space => _) = _
        simp [he]
    | some space =>
        rw [byteAt_of_space (m := m) he, byteAt_of_space (m := m.put a b) he]
        cases state : space (pageOf w) with
        | unmapped avail => rfl
        | mapped pte =>
            have ge := inv.wf.user e _ _ (maps_of_state he user.page state)
            have : pte.pageAddr * pageSize + w % pageSize ≠ a := by omega
            simp [byteOf, Mem.put, Function.update_of_ne this]
  refine ⟨⟨⟨inv.wf, inv.zeroReadOnly, fun off hoff => ?_⟩, le_refl _, fun _ _ => rfl,
    fun e w _ => seen e w⟩, seen d⟩
  have : zeroFrame + off ≠ a := by
    have : zeroFrame = userPageStart := rfl
    omega
  simp only [Mem.put, Function.update_of_ne this]
  exact inv.zeroClean off hoff

end OsKernel.Memory
