/-
`alter_page_dir` on the page tables of a guest (`kern/virtual_interrupt.c`).

The entries are the 32-bit words that the processor reads. `load_executable` gives a guest
`GUEST_MEM_SIZE` bytes from `USER_MEM_START` on; what lies below `USER_MEM_START` in the
addresses of the guest is the memory of its kernel, and it is there that the loop sets the
bits. `alter_page_dir_iff` says for which tables it makes no difference that the loop
leaves the rest of the guest alone.
-/

import OsKernel.Guest.Machine

namespace OsKernel.Guest

open OsKernel.Vm

/-- A page directory, and the page tables by the pages they lie in. -/
structure PageTables where
  pde : Nat → BitVec 32
  pte : BitVec 20 → Nat → BitVec 32

/-- The `p` bit of an entry. -/
def isPresent (entry : BitVec 32) : Bool := entry.getLsbD 0

/-- The `us` bit of an entry. -/
def us (entry : BitVec 32) : Bool := entry.getLsbD 2

/-- The assignment to the `us` bit of an entry. -/
def setUs (entry : BitVec 32) (b : Bool) : BitVec 32 := if b then entry ||| 4 else entry &&& ~~~4

/-- `pt_addr` -/
def ptAddr (entry : BitVec 32) : BitVec 20 := entry.extractLsb' 12 20

namespace PageTables

/-- `page_table[pte_idx].us = b` -/
def store (t : PageTables) (table : BitVec 20) (pteIdx : Nat) (b : Bool) : PageTables :=
  { t with
    pte := Function.update t.pte table
      (Function.update (t.pte table) pteIdx (setUs (t.pte table pteIdx) b)) }

/-- The loop of `alter_page_dir`. -/
def alterLoop (t : PageTables) (kernelMode : Bool) (addr : Nat) : PageTables × Int :=
  if addr < userMemStart + userMemStart then
    let pdeIdx := addr / pageSize / pteCount
    if isPresent (t.pde pdeIdx) = false then (t, -1)
    else
      let pageTable := ptAddr (t.pde pdeIdx)
      let pteIdx := addr / pageSize % pteCount
      if isPresent (t.pte pageTable pteIdx) = false then (t, -1)
      else (t.store pageTable pteIdx kernelMode).alterLoop kernelMode (addr + pageSize)
  else (t, 0)
termination_by userMemStart + userMemStart - addr
decreasing_by
  simp only [userMemStart, pageSize] at *
  omega

/-- `alter_page_dir`; none for the null pointer. -/
def alterPageDir (pageDir : Option PageTables) (kernelMode : Bool) : Option PageTables × Int :=
  match pageDir with
  | none => (none, -1)
  | some t => (some (t.alterLoop kernelMode userPageStart).1, (t.alterLoop kernelMode userPageStart).2)

/-- Where the entry of a page is. -/
def slot (t : PageTables) (page : Nat) : BitVec 20 × Nat :=
  (ptAddr (t.pde (page / pteCount)), page % pteCount)

def entry (t : PageTables) (page : Nat) : BitVec 32 := t.pte (t.slot page).1 (t.slot page).2

def Mapped (t : PageTables) (page : Nat) : Prop :=
  isPresent (t.pde (page / pteCount)) = true ∧ isPresent (t.entry page) = true

/-- A page of the memory that `load_executable` gives to a guest. -/
def OfGuest (page : Nat) : Prop :=
  userMemStart ≤ page * pageSize ∧ page * pageSize < userMemStart + guestMemSize

/-- The memory of a guest as `load_executable` leaves it: mapped, through page tables of
its own. -/
structure Loaded (t : PageTables) : Prop where
  mapped : ∀ page, OfGuest page → t.Mapped page
  apart : ∀ page page', OfGuest page → OfGuest page' → t.slot page = t.slot page' → page = page'

/-- A page of the memory of the guest's kernel. -/
def OfGuestKernel (page : Nat) : Prop :=
  userMemStart ≤ page * pageSize ∧ page * pageSize < userMemStart + userMemStart

/-- The user/supervisor bits of the pages of a region have been set to `b`, and nothing
else. -/
structure Altered (region : Nat → Prop) (t t' : PageTables) (b : Bool) : Prop where
  us : ∀ page, region page → us (t'.entry page) = b
  bits : ∀ page, region page → ∀ i ≠ 2, (t'.entry page).getLsbD i = (t.entry page).getLsbD i
  others : ∀ table pteIdx, (∀ page, region page → t.slot page ≠ (table, pteIdx)) →
    t'.pte table pteIdx = t.pte table pteIdx
  pde : t'.pde = t.pde

/-! ### Entries -/

theorem getLsbD_setUs (w : BitVec 32) (b : Bool) (i : Nat) :
    (setUs w b).getLsbD i = if i = 2 then b else w.getLsbD i := by
  have four : (4 : BitVec 32) = BitVec.twoPow 32 2 := rfl
  rw [setUs, four]
  by_cases inside : i < 32
  · by_cases two : 2 = i
    · subst two
      cases b <;> simp
    · cases b <;> simp [Ne.symm two, inside]
  · have out : ∀ v : BitVec 32, v.getLsbD i = false := fun v => BitVec.getLsbD_of_ge v i (by omega)
    rw [out, out, if_neg (by omega)]

theorem setUs_setUs (w : BitVec 32) (b : Bool) : setUs (setUs w b) b = setUs w b := by
  refine BitVec.eq_of_getLsbD_eq fun i _ => ?_
  simp only [getLsbD_setUs]
  split <;> rfl

theorem isPresent_setUs (w : BitVec 32) (b : Bool) : isPresent (setUs w b) = isPresent w := by
  rw [isPresent, getLsbD_setUs]
  rfl

/-! ### The loop -/

variable {t : PageTables} {b : Bool} {page : Nat}

/-- One entry of one table. -/
theorem store_pte (t : PageTables) (b : Bool) (page : Nat) (at_ : BitVec 20 × Nat) :
    (t.store (t.slot page).1 (t.slot page).2 b).pte at_.1 at_.2 =
      if t.slot page = at_ then setUs (t.pte at_.1 at_.2) b else t.pte at_.1 at_.2 := by
  obtain ⟨table, pteIdx⟩ := at_
  rw [store]
  dsimp only
  by_cases sameTable : table = (t.slot page).1
  · rw [sameTable, Function.update_self]
    by_cases sameIdx : pteIdx = (t.slot page).2
    · rw [sameIdx, Function.update_self, if_pos rfl]
    · rw [Function.update_of_ne sameIdx, if_neg fun same => sameIdx (congrArg Prod.snd same).symm]
  · rw [Function.update_of_ne sameTable, if_neg fun same => sameTable (congrArg Prod.fst same).symm]

theorem alterLoop_succ (below : page * pageSize < userMemStart + userMemStart) (mapped : t.Mapped page) :
    t.alterLoop b (page * pageSize) =
      (t.store (t.slot page).1 (t.slot page).2 b).alterLoop b ((page + 1) * pageSize) := by
  have number : page * pageSize / pageSize = page := Nat.mul_div_cancel page (by decide)
  have next : page * pageSize + pageSize = (page + 1) * pageSize := (Nat.succ_mul page pageSize).symm
  have present : ¬ isPresent (t.pte (ptAddr (t.pde (page / pteCount))) (page % pteCount)) = false :=
    Bool.not_eq_false _ ▸ mapped.2
  rw [alterLoop, if_pos below]
  dsimp only
  rw [number, mapped.1, if_neg Bool.noConfusion, if_neg present, next]
  rfl

theorem alterLoop_end (t : PageTables) (b : Bool) {addr : Nat} (done : userMemStart + userMemStart ≤ addr) :
    t.alterLoop b addr = (t, 0) := by rw [alterLoop, if_neg (Nat.not_lt.mpr done)]

/-- A page that the loop still comes to. -/
def Ahead (page q : Nat) : Prop := page ≤ q ∧ q * pageSize < userMemStart + userMemStart

/-- From a page on, the loop sets the bit in the entries of the pages ahead, and writes
nothing else. -/
theorem alterLoop_spec (n : Nat) (far : userMemStart + userMemStart ≤ (page + n) * pageSize)
    (mapped : ∀ q, Ahead page q → t.Mapped q) :
    (t.alterLoop b (page * pageSize)).2 = 0 ∧ (t.alterLoop b (page * pageSize)).1.pde = t.pde ∧
      (∀ q, Ahead page q →
        (t.alterLoop b (page * pageSize)).1.pte (t.slot q).1 (t.slot q).2 = setUs (t.entry q) b) ∧
      ∀ at_ : BitVec 20 × Nat, (∀ q, Ahead page q → t.slot q ≠ at_) →
        (t.alterLoop b (page * pageSize)).1.pte at_.1 at_.2 = t.pte at_.1 at_.2 := by
  induction n generalizing t page with
  | zero =>
      rw [Nat.add_zero] at far
      rw [alterLoop_end t b far]
      refine ⟨rfl, rfl, fun q ahead => ?_, fun _ _ => rfl⟩
      have le := Nat.mul_le_mul_right pageSize ahead.1
      have lt := ahead.2
      omega
  | succ n ih =>
      by_cases done : userMemStart + userMemStart ≤ page * pageSize
      · rw [alterLoop_end t b done]
        refine ⟨rfl, rfl, fun q ahead => ?_, fun _ _ => rfl⟩
        have le := Nat.mul_le_mul_right pageSize ahead.1
        have lt := ahead.2
        omega
      have below : page * pageSize < userMemStart + userMemStart := Nat.not_le.mp done
      rw [alterLoop_succ below (mapped page ⟨Nat.le_refl page, below⟩)]
      have slots : ∀ q, (t.store (t.slot page).1 (t.slot page).2 b).slot q = t.slot q := fun _ => rfl
      have entries : ∀ q, (t.store (t.slot page).1 (t.slot page).2 b).entry q =
          if t.slot page = t.slot q then setUs (t.entry q) b else t.entry q :=
        fun q => store_pte t b page (t.slot q)
      have later : ∀ q, Ahead (page + 1) q → Ahead page q := fun q ahead =>
        ⟨Nat.le_of_succ_le ahead.1, ahead.2⟩
      obtain ⟨zero, pde, set, same⟩ := ih (t := t.store (t.slot page).1 (t.slot page).2 b)
        (show userMemStart + userMemStart ≤ (page + 1 + n) * pageSize by rwa [Nat.add_right_comm])
        fun q ahead => by
          refine ⟨(mapped q (later q ahead)).1, ?_⟩
          rw [entries]
          split
          · rw [isPresent_setUs]
            exact (mapped q (later q ahead)).2
          · exact (mapped q (later q ahead)).2
      refine ⟨zero, pde, fun q ahead => ?_, fun at_ out => ?_⟩
      · by_cases again : ∃ r, Ahead (page + 1) r ∧ t.slot r = t.slot q
        · -- the entry is written again, to the same effect
          obtain ⟨r, aheadR, sameSlot⟩ := again
          have setR := set r aheadR
          have entryEq : t.entry r = t.entry q := by rw [entry, entry, sameSlot]
          rw [slots, sameSlot, entries, sameSlot, entryEq] at setR
          rw [setR]
          split
          · exact setUs_setUs _ _
          · rfl
        · have only : q = page := by
            by_contra other
            have here := ahead.1
            exact again ⟨q, ⟨by omega, ahead.2⟩, rfl⟩
          subst only
          rw [same (t.slot q) fun r aheadR sameSlot => again ⟨r, aheadR, sameSlot⟩, store_pte, if_pos rfl]
          rfl
      · rw [same at_ fun r aheadR => out r (later r aheadR), store_pte,
          if_neg (out page ⟨Nat.le_refl page, below⟩)]

/-! ### The guest -/

/-- A page of the guest that lies behind the end of the loop. -/
def Behind (page : Nat) : Prop :=
  userMemStart + userMemStart ≤ page * pageSize ∧ page * pageSize < userMemStart + guestMemSize

theorem ofGuest_iff : OfGuest page ↔ OfGuestKernel page ∨ Behind page := by
  simp only [OfGuest, OfGuestKernel, Behind, userMemStart, pageSize, guestMemSize]
  omega

theorem ahead_iff : Ahead (userPageStart / pageSize) page ↔ OfGuestKernel page := by
  simp only [OfGuestKernel, Ahead, userMemStart, userPageStart, pageSize]
  omega

/-- In the memory of a guest `alter_page_dir` returns 0 and sets the bits of the pages of
the guest's kernel; the entries of the other pages of the guest stay as they are. -/
theorem alterPageDir_loaded (loaded : t.Loaded) (kernelMode : Bool) :
    ∃ t', alterPageDir (some t) kernelMode = (some t', 0) ∧
      Altered OfGuestKernel t t' kernelMode ∧
      ∀ page, Behind page → t'.entry page = t.entry page := by
  have start : userPageStart = userPageStart / pageSize * pageSize := by decide
  obtain ⟨zero, pde, set, same⟩ := alterLoop_spec (t := t) (b := kernelMode)
    0x1000 (show _ ≤ (userPageStart / pageSize + _) * _ by decide) fun q ahead =>
      loaded.mapped q (ofGuest_iff.mpr (.inl (ahead_iff.mp ahead)))
  rw [← start] at zero pde set same
  rw [alterPageDir]
  generalize t.alterLoop kernelMode userPageStart = out at *
  obtain ⟨t', r⟩ := out
  obtain rfl : r = 0 := zero
  have pde : t'.pde = t.pde := pde
  have slots : ∀ page, t'.slot page = t.slot page := fun page => by rw [slot, slot, pde]
  have entries : ∀ page, OfGuestKernel page → t'.entry page = setUs (t.entry page) kernelMode := by
    intro page inside
    rw [entry, slots]
    exact set page (ahead_iff.mpr inside)
  refine ⟨t', rfl, ⟨fun page inside => ?_, fun page inside i other => ?_, fun table pteIdx out => ?_,
    pde⟩, fun page behind => ?_⟩
  · rw [entries page inside, us, getLsbD_setUs, if_pos rfl]
  · rw [entries page inside, getLsbD_setUs, if_neg other]
  · exact same (table, pteIdx) fun q ahead => out q (ahead_iff.mp ahead)
  · -- the tables of the guest are apart, so no entry behind the end is written
    rw [entry, slots]
    refine same (t.slot page) fun q ahead sameSlot => ?_
    have inside := ofGuest_iff.mpr (.inl (ahead_iff.mp ahead))
    have here := loaded.apart q page inside (ofGuest_iff.mpr (.inr behind)) sameSlot
    have lt := ahead.2
    have le := behind.1
    rw [here] at lt
    omega

/-- `alter_page_dir` returns 0 and sets the bits of all pages of a guest exactly when those
behind the memory of its kernel have had them before. -/
theorem alter_page_dir_iff (loaded : t.Loaded) (kernelMode : Bool) :
    (∃ t', alterPageDir (some t) kernelMode = (some t', 0) ∧ Altered OfGuest t t' kernelMode) ↔
      ∀ page, Behind page → us (t.entry page) = kernelMode := by
  obtain ⟨t', returns, altered, kept⟩ := alterPageDir_loaded loaded kernelMode
  constructor
  · rintro ⟨t'', same, all⟩ page behind
    obtain rfl : t' = t'' := Option.some.inj (congrArg Prod.fst (returns.symm.trans same))
    rw [← kept page behind]
    exact all.us page (ofGuest_iff.mpr (.inr behind))
  · intro already
    refine ⟨t', returns, fun page inside => ?_, fun page inside i other => ?_, fun table pteIdx out => ?_,
      altered.pde⟩
    · rcases ofGuest_iff.mp inside with inKernel | behind
      · exact altered.us page inKernel
      · rw [kept page behind]
        exact already page behind
    · rcases ofGuest_iff.mp inside with inKernel | behind
      · exact altered.bits page inKernel i other
      · rw [kept page behind]
    · exact altered.others table pteIdx fun page inKernel => out page (ofGuest_iff.mpr (.inl inKernel))

/-- In the memory of a guest `alter_page_dir` returns 0, sets the bits of the pages of the
guest's kernel and changes nothing else. -/
theorem alter_page_dir_guest_kernel (loaded : t.Loaded) (kernelMode : Bool) :
    ∃ t', alterPageDir (some t) kernelMode = (some t', 0) ∧
      Altered OfGuestKernel t t' kernelMode ∧
      ∀ page, OfGuest page → ¬ OfGuestKernel page → t'.entry page = t.entry page := by
  obtain ⟨t', returns, altered, kept⟩ := alterPageDir_loaded loaded kernelMode
  exact ⟨t', returns, altered, fun page inside outside =>
    kept page ((ofGuest_iff.mp inside).resolve_left outside)⟩

/-- Page table `i` in page `i`, with every page mapped, writable and for the user. -/
def plain : PageTables := ⟨fun i => (BitVec.ofNat 20 i ++ 7#12), fun _ _ => 7⟩

theorem loaded_plain : plain.Loaded := by
  have small : ∀ page, OfGuest page → page < 0x2400 := fun page inside => by
    simp only [OfGuest, userMemStart, guestMemSize, pageSize] at inside
    omega
  have address : ∀ i : Nat, ptAddr (plain.pde i) = BitVec.ofNat 20 i := fun i => by
    simp only [ptAddr, plain]
    exact BitVec.extractLsb'_append_eq_left
  refine ⟨fun page _ => ⟨?_, (by decide : isPresent 7 = true)⟩, fun page page' inside inside' same => ?_⟩
  · rw [isPresent, plain, BitVec.getLsbD_append, if_pos (by decide)]
    rfl
  · rw [slot, slot, address, address, Prod.mk.injEq] at same
    have table := congrArg BitVec.toNat same.1
    have bound := small page inside
    have bound' := small page' inside'
    simp only [BitVec.toNat_ofNat, pteCount, pageSize] at table same
    omega

theorem alter_page_dir_guest_kernel_plain :
    ∃ t', alterPageDir (some plain) false = (some t', 0) ∧ Altered OfGuestKernel plain t' false ∧
      ∀ page, OfGuest page → ¬ OfGuestKernel page → t'.entry page = plain.entry page :=
  alter_page_dir_guest_kernel loaded_plain false

/-- The last pages of a guest keep their bits. -/
theorem user_mode_not_altered : ¬ ∀ (t : PageTables) (kernelMode : Bool), t.Loaded →
    ∃ t', alterPageDir (some t) kernelMode = (some t', 0) ∧ Altered OfGuest t t' kernelMode := by
  intro alters
  have bit := (alter_page_dir_iff loaded_plain false).mp (alters plain false loaded_plain) 0x2000
    ⟨by decide, by decide⟩
  exact absurd bit (by decide : ¬ us 7 = false)

end PageTables

end OsKernel.Guest
