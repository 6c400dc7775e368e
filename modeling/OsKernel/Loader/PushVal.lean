/-
`push_val` as a store primitive (`kern/loader.c`), in any address space.

A page is mapped to a frame, and several pages may be mapped to one: the kernel maps many to
the zero frame, and a store of its own goes through to the frame whatever the page allows. A
store is therefore one to a cell of a frame, and `storeAll_cases` says what is in the cells
after several of them. `push_val_iff` has the exact condition under which the value, the
bytes above it and the rest of the memory are as they should be.
-/

import OsKernel.Memory.Load

namespace OsKernel.Loader.PushVal

open OsKernel.Vm
open OsKernel.Memory (pagesOf Visits visits_pagesOf)

/-! ### Address spaces -/

inductive Entry where
  | unmapped (available : Bool)
  | mapped (frame : Nat)
deriving DecidableEq

/-- The pages of the current directory, by number, and the frames. -/
structure Space where
  page : Nat → Entry
  /-- By frame and offset. -/
  phys : Nat × Nat → UInt8
  /-- `alloc_list` -/
  free : List Nat
  /-- The page has a page table, or one can be allocated for it. -/
  tableFor : Nat → Bool

namespace Space

/-- The byte of a frame that an address stands for, if its page is mapped. -/
def cell (s : Space) (v : Nat) : Option (Nat × Nat) :=
  match s.page (pageOf v) with
  | .mapped f => some (f, v % pageSize)
  | .unmapped _ => none

/-- `map_new_frame` of an available page, and its `memset`. -/
def mapNew (s : Space) (q : Nat) : Space × Bool :=
  if s.tableFor q then
    match s.free with
    | [] => (s, false)
    | f :: free =>
        ({ s with page := Function.update s.page q (.mapped f)
                  phys := fun c => if c.1 = f then 0 else s.phys c
                  free := free }, true)
  else (s, false)

/-- One page of `map_and_clear`, with `zero_frame` false. The 64-bit address is cut to 32
bits by the functions it is passed to. -/
def mapAndClearPage (s : Space) (i : Nat) : Space × Bool :=
  if pageOf i * pageSize < userPageStart then (s, false)
  else match s.page (pageOf i) with
    | .mapped _ => (s, true)
    | .unmapped true => s.mapNew (pageOf i)
    | .unmapped false => (s, false)

/-- The loop of `map_and_clear`, up to the first failure. -/
def mapAndClear (s : Space) : List Nat → Space × Bool
  | [] => (s, true)
  | i :: is =>
      if (s.mapAndClearPage i).2 then (s.mapAndClearPage i).1.mapAndClear is
      else ((s.mapAndClearPage i).1, false)

/-- Stores of the kernel, to 32-bit addresses; none when one faults. -/
def storeAll (s : Space) : List (Nat × UInt8) → Option Space
  | [] => some s
  | (v, b) :: ws =>
      match s.cell v with
      | none => none
      | some c => Space.storeAll { s with phys := Function.update s.phys c b } ws

end Space

/-! ### The function -/

/-- How a call ends: with a result, the new stack pointer and the addresses it has stored to,
or with a page fault. -/
inductive Outcome where
  | returned (r : Int) (s : Space) (esp : BitVec 32) (stored : List Nat)
  | faulted

/-- The address so many bytes above another. -/
def addr (esp : BitVec 32) (i : Nat) : Nat := (esp.toNat + i) % virtualAddrEnd

/-- `new_esp` -/
def newEsp (esp size : BitVec 32) : BitVec 32 := (esp - size) / 4 * 4

/-- The stores of the two loops. -/
def stores (esp size : BitVec 32) (val : Nat → UInt8) : List (Nat × UInt8) :=
  (List.range size.toNat).map (fun i => (addr (newEsp esp size) i, val i)) ++
    (List.range (esp.toNat - (newEsp esp size + size).toNat)).map fun i =>
      ((newEsp esp size + size).toNat + i, 0)

/-- `push_val` -/
def pushVal (s : Space) (esp size : BitVec 32) (val : Nat → UInt8) : Outcome :=
  if size = 0 then .returned 0 s esp []
  else
    match s.mapAndClear (pagesOf (newEsp esp size).toNat (esp - newEsp esp size).toNat) with
    | (s, false) => .returned (-1) s esp []
    | (s, true) => match s.storeAll (stores esp size val) with
        | none => .faulted
        | some s => .returned 0 s (newEsp esp size) ((stores esp size val).map Prod.fst)

/-! ### What it is for -/

namespace Space

/-- What is read at an address, if its page is mapped. -/
def read (s : Space) (v : Nat) : Option UInt8 := (s.cell v).map s.phys

/-- The allocator does not own the frame of any page, and no frame twice. -/
structure Wf (s : Space) : Prop where
  nodup : s.free.Nodup
  used : ∀ q f, s.page q = .mapped f → f ∉ s.free

/-- Two addresses of one byte. -/
def Shared (s : Space) (v w : Nat) : Prop := ∃ c, s.cell v = some c ∧ s.cell w = some c

end Space

/-- The value stands below the old stack pointer, with zeros above it, and no other byte
that was mapped has changed. -/
structure Pushed (s : Space) (esp size : BitVec 32) (val : Nat → UInt8) (s' : Space)
    (esp' : BitVec 32) (stored : List Nat) : Prop where
  aligned : esp'.toNat % 4 = 0
  below : ∃ k ≤ 3, esp - esp' = size + BitVec.ofNat 32 k
  value : ∀ i < size.toNat, s'.read (addr esp' i) = some (val i)
  zeros : ∀ i, size.toNat ≤ i → i < (esp - esp').toNat → s'.read (addr esp' i) = some 0
  rest : ∀ v < virtualAddrEnd, (∀ i, i < size.toNat ∨ i < (esp - esp').toNat → v ≠ addr esp' i) →
    ∀ b, s.read v = some b → s'.read v = some b
  user : ∀ v ∈ stored, userMemStart ≤ v

/-- What an address is to show in the end. -/
def wanted (s : Space) (esp size : BitVec 32) (val : Nat → UInt8) (v : Nat) : Option UInt8 :=
  let i := (v + virtualAddrEnd - (newEsp esp size).toNat) % virtualAddrEnd
  if i < size.toNat then some (val i)
  else if i < (esp - newEsp esp size).toNat then some 0
  else s.read v

/-- The value and the bytes above it fit into the address space; a byte that is stored to is
shared only with addresses that are to show the same; and below the top of the address
space, where the bytes above the value are not cleared, they are zero or are stored to
through another page. -/
structure Clean (s : Space) (esp size : BitVec 32) (val : Nat → UInt8) : Prop where
  fits : size.toNat + (esp - size).toNat % 4 < virtualAddrEnd
  apart : ∀ v < virtualAddrEnd, ∀ w ∈ (stores esp size val).map Prod.fst, s.Shared v w →
    wanted s esp size val v = wanted s esp size val w
  top : esp = 0 → ∀ i, size.toNat ≤ i → i < (esp - newEsp esp size).toNat →
    ∀ b, s.read (addr (newEsp esp size) i) = some b →
      b = 0 ∨ ∃ w ∈ (stores esp size val).map Prod.fst, s.Shared (addr (newEsp esp size) i) w

/-! ### Mapping -/

namespace Space

variable {s s₁ : Space}

/-- A space with more pages mapped, to frames from the allocator that are cleared. -/
structure Extends (s s₁ : Space) : Prop where
  keep : ∀ q f, s.page q = .mapped f → s₁.page q = .mapped f
  data : ∀ q f, s.page q = .mapped f → ∀ o, s₁.phys (f, o) = s.phys (f, o)
  fresh : ∀ q f, s₁.page q = .mapped f →
    s.page q = .mapped f ∨ f ∈ s.free ∧ ∀ o, s₁.phys (f, o) = 0
  once : ∀ q q' f, f ∈ s.free → s₁.page q = .mapped f → s₁.page q' = .mapped f → q = q'
  left : s₁.free <:+ s.free
  used : ∀ q f, s₁.page q = .mapped f → f ∉ s₁.free

theorem Wf.extends (wf : s.Wf) : Extends s s :=
  ⟨fun _ _ h => h, fun _ _ _ _ => rfl, fun _ _ h => .inl h,
    fun q _ f free here _ => absurd free (wf.used q f here), List.suffix_rfl, wf.used⟩

theorem Extends.mapNew (wf : s.Wf) (ext : Extends s s₁) {q : Nat} {avail : Bool}
    (here : s₁.page q = .unmapped avail) : Extends s (s₁.mapNew q).1 := by
  rw [Space.mapNew]
  split
  swap
  · exact ext
  split
  · exact ext
  rename_i f free whole
  have nodup := ext.left.sublist.nodup wf.nodup
  rw [whole] at nodup
  have own : f ∈ s.free := ext.left.subset (by rw [whole]; exact List.mem_cons_self)
  have unused : ∀ p, s₁.page p ≠ .mapped f := fun p same =>
    ext.used p f same (by rw [whole]; exact List.mem_cons_self)
  have old : ∀ p g, s.page p = .mapped g → g ≠ f := fun p g same eq =>
    wf.used p g same (eq ▸ own)
  refine ⟨fun p g same => ?_, fun p g same o => ?_, fun p g same => ?_, fun p p' g ofFree same same' => ?_,
    ?_, fun p g same => ?_⟩
  · have ne : p ≠ q := fun eq => by
      have before := ext.keep p g same
      rw [eq, here] at before
      cases before
    exact (Function.update_of_ne ne _ _).trans (ext.keep p g same)
  · exact (if_neg (old p g same)).trans (ext.data p g same o)
  · by_cases at_ : p = q
    · subst at_
      have eq : Entry.mapped f = .mapped g := (Function.update_self p _ _).symm.trans same
      cases eq
      exact .inr ⟨own, fun _ => if_pos rfl⟩
    · have before : s₁.page p = .mapped g := (Function.update_of_ne at_ _ _).symm.trans same
      rcases ext.fresh p g before with was | ⟨ofFree, zero⟩
      · exact .inl was
      · refine .inr ⟨ofFree, fun o => ?_⟩
        have ne : g ≠ f := fun eq => unused p (eq ▸ before)
        exact (if_neg ne).trans (zero o)
  · have dest : ∀ r, Function.update s₁.page q (.mapped f) r = .mapped g →
        r = q ∧ g = f ∨ s₁.page r = .mapped g := fun r same => by
      by_cases at_ : r = q
      · subst at_
        rw [Function.update_self] at same
        cases same
        exact .inl ⟨rfl, rfl⟩
      · rw [Function.update_of_ne at_] at same
        exact .inr same
    rcases dest p same with ⟨rfl, rfl⟩ | before
    · rcases dest p' same' with ⟨rfl, -⟩ | before'
      · rfl
      · exact absurd before' (unused p')
    · rcases dest p' same' with ⟨rfl, rfl⟩ | before'
      · exact absurd before (unused p)
      · exact ext.once p p' g ofFree before before'
  · exact (whole ▸ List.suffix_cons f free).trans ext.left
  · by_cases at_ : p = q
    · subst at_
      have eq : Entry.mapped f = .mapped g := (Function.update_self p _ _).symm.trans same
      cases eq
      exact (List.nodup_cons.mp nodup).1
    · have before : s₁.page p = .mapped g := (Function.update_of_ne at_ _ _).symm.trans same
      exact fun mem => ext.used p g before (by rw [whole]; exact List.mem_cons_of_mem f mem)

theorem Extends.page (wf : s.Wf) (ext : Extends s s₁) (i : Nat) :
    Extends s (s₁.mapAndClearPage i).1 := by
  rw [mapAndClearPage]
  split
  · exact ext
  · split
    · exact ext
    · rename_i here
      exact ext.mapNew wf here
    · exact ext

theorem Extends.walk (wf : s.Wf) (ext : Extends s s₁) (is : List Nat) :
    Extends s (s₁.mapAndClear is).1 := by
  induction is generalizing s₁ with
  | nil => exact ext
  | cons i is ih =>
      rw [mapAndClear]
      split
      · exact ih (ext.page wf i)
      · exact ext.page wf i

theorem cell_some {v : Nat} {c : Nat × Nat} :
    s.cell v = some c ↔ s.page (pageOf v) = .mapped c.1 ∧ v % pageSize = c.2 := by
  rw [cell]
  split
  · rename_i f here
    rw [here, Option.some.injEq, Entry.mapped.injEq, Prod.ext_iff]
  · rename_i here
    simp [here]

theorem Extends.cell (ext : Extends s s₁) {v : Nat} {c : Nat × Nat} (here : s.cell v = some c) :
    s₁.cell v = some c ∧ s₁.phys c = s.phys c := by
  obtain ⟨page, off⟩ := cell_some.mp here
  exact ⟨cell_some.mpr ⟨ext.keep _ _ page, off⟩, ext.data _ _ page c.2⟩

theorem Extends.read (ext : Extends s s₁) {v : Nat} {b : UInt8} (here : s.read v = some b) :
    s₁.read v = some b := by
  obtain ⟨c, cell, rfl⟩ := Option.map_eq_some_iff.mp here
  obtain ⟨cell', same⟩ := ext.cell cell
  rw [Space.read, cell', Option.map_some, same]

/-- Two addresses of one byte are one address or had that byte before. -/
theorem Extends.shared (wf : s.Wf) (ext : Extends s s₁) {v w : Nat} {c : Nat × Nat}
    (hv : s₁.cell v = some c) (hw : s₁.cell w = some c) (lv : v < virtualAddrEnd)
    (lw : w < virtualAddrEnd) : v = w ∨ s.cell v = some c ∧ s.cell w = some c := by
  obtain ⟨pv, ov⟩ := cell_some.mp hv
  obtain ⟨pw, ow⟩ := cell_some.mp hw
  have one : c.1 ∈ s.free → v = w := fun free => by
    have same := ext.once _ _ _ free pv pw
    simp only [pageOf, pageSize, virtualAddrEnd] at same ov ow lv lw
    omega
  rcases ext.fresh _ _ pv with old | ⟨free, -⟩
  · rcases ext.fresh _ _ pw with old' | ⟨free, -⟩
    · exact .inr ⟨cell_some.mpr ⟨old, ov⟩, cell_some.mpr ⟨old', ow⟩⟩
    · exact absurd free (wf.used _ _ old)
  · exact .inl (one free)

theorem page_mapAndClearPage {q f : Nat} (here : s.page q = .mapped f) (i : Nat) :
    (s.mapAndClearPage i).1.page q = .mapped f := by
  rw [mapAndClearPage]
  split
  · exact here
  · split
    · exact here
    · rename_i there
      rw [mapNew]
      split
      swap
      · exact here
      split
      · exact here
      · refine (Function.update_of_ne (fun eq => ?_) _ _).trans here
        rw [eq, there] at here
        cases here
    · exact here

theorem page_mapAndClear {q f : Nat} (here : s.page q = .mapped f) (is : List Nat) :
    (s.mapAndClear is).1.page q = .mapped f := by
  induction is generalizing s with
  | nil => exact here
  | cons i is ih =>
      rw [mapAndClear]
      split
      · exact ih (page_mapAndClearPage here i)
      · exact page_mapAndClearPage here i

theorem mapAndClearPage_user {i : Nat} (ok : (s.mapAndClearPage i).2 = true) :
    userPageStart ≤ pageOf i * pageSize ∧ ∃ f, (s.mapAndClearPage i).1.page (pageOf i) = .mapped f := by
  rw [mapAndClearPage] at ok ⊢
  split at ok
  · cases ok
  rename_i user
  refine ⟨not_lt.mp user, ?_⟩
  rw [if_neg user]
  split at ok
  · rename_i f here
    exact ⟨f, here⟩
  · rw [mapNew] at ok ⊢
    split at ok
    · rename_i table
      rw [if_pos table]
      split at ok
      · cases ok
      · rename_i f free whole
        exact ⟨f, Function.update_self _ _ _⟩
    · cases ok
  · cases ok

/-- The pages that a walk without a failure has visited are user pages, and mapped. -/
theorem mapAndClear_user {is : List Nat} (ok : (s.mapAndClear is).2 = true) {i : Nat} (mem : i ∈ is) :
    userPageStart ≤ pageOf i * pageSize ∧ ∃ f, (s.mapAndClear is).1.page (pageOf i) = .mapped f := by
  induction is generalizing s with
  | nil => cases mem
  | cons j is ih =>
      rw [mapAndClear] at ok ⊢
      split at ok
      swap
      · cases ok
      rename_i first
      rw [if_pos first]
      rcases List.mem_cons.mp mem with rfl | later
      · obtain ⟨user, f, here⟩ := mapAndClearPage_user first
        exact ⟨user, f, page_mapAndClear here is⟩
      · exact ih ok later

/-- A cell shows what one of the stores has left there, or what was there before. -/
theorem storeAll_cases {ws : List (Nat × UInt8)} {s' : Space} (done : s.storeAll ws = some s') :
    s'.page = s.page ∧ (∀ w ∈ ws, ∃ c, s.cell w.1 = some c) ∧
      ∀ c, (∃ w ∈ ws, s.cell w.1 = some c ∧ s'.phys c = w.2) ∨
        (∀ w ∈ ws, s.cell w.1 ≠ some c) ∧ s'.phys c = s.phys c := by
  induction ws generalizing s with
  | nil =>
      cases done
      exact ⟨rfl, nofun, fun c => .inr ⟨nofun, rfl⟩⟩
  | cons w ws ih =>
      rw [storeAll] at done
      split at done
      · cases done
      rename_i d here
      obtain ⟨page, mapped, cells⟩ := ih done
      refine ⟨page, List.forall_mem_cons.mpr ⟨⟨d, here⟩, mapped⟩, fun c => ?_⟩
      rcases cells c with ⟨v, mem, cell, shown⟩ | ⟨others, shown⟩
      · exact .inl ⟨v, List.mem_cons_of_mem w mem, cell, shown⟩
      · by_cases same : d = c
        · refine .inl ⟨w, List.mem_cons_self, same ▸ here, shown.trans ?_⟩
          rw [← same]
          exact Function.update_self _ _ _
        · refine .inr ⟨List.forall_mem_cons.mpr ⟨fun eq => same ?_, others⟩, shown.trans ?_⟩
          · exact Option.some.inj (here.symm.trans eq)
          · exact Function.update_of_ne (Ne.symm same) _ _

end Space

/-! ### Addresses -/

section
variable {esp size : BitVec 32} {val : Nat → UInt8}

theorem newEsp_toNat (esp size : BitVec 32) :
    (newEsp esp size).toNat = (esp - size).toNat / 4 * 4 := by
  have four : (4 : BitVec 32).toNat = 4 := rfl
  have below := (esp - size).isLt
  rw [newEsp, BitVec.toNat_mul, BitVec.toNat_udiv, four, Nat.mod_eq_of_lt (by omega)]

theorem distance_toNat (fits : size.toNat + (esp - size).toNat % 4 < virtualAddrEnd) :
    (esp - newEsp esp size).toNat = size.toNat + (esp - size).toNat % 4 := by
  have rounded := newEsp_toNat esp size
  simp only [virtualAddrEnd] at fits
  simp only [BitVec.toNat_sub] at *
  omega

/-- The range ends at the old stack pointer, or at the end of the address space. -/
theorem distance_top (esp size : BitVec 32)
    (le : (newEsp esp size).toNat + (esp - newEsp esp size).toNat ≤ virtualAddrEnd) :
    (newEsp esp size).toNat + (esp - newEsp esp size).toNat = esp.toNat ∨
      esp = 0 ∧ (newEsp esp size).toNat + (esp - newEsp esp size).toNat = virtualAddrEnd := by
  by_cases zero : esp.toNat = 0
  · by_cases none : (newEsp esp size).toNat = 0
    · left
      simp only [virtualAddrEnd, BitVec.toNat_sub] at *
      omega
    · refine .inr ⟨BitVec.eq_of_toNat_eq zero, ?_⟩
      simp only [virtualAddrEnd, BitVec.toNat_sub] at *
      omega
  · left
    simp only [virtualAddrEnd, BitVec.toNat_sub] at *
    omega

/-- The stores are the value, and unless the old stack pointer is zero, the bytes above. -/
theorem mem_stores (fits : size.toNat + (esp - size).toNat % 4 < virtualAddrEnd)
    (le : (newEsp esp size).toNat + (esp - newEsp esp size).toNat ≤ virtualAddrEnd)
    {w : Nat × UInt8} : w ∈ stores esp size val ↔
      (∃ i < size.toNat, w = (addr (newEsp esp size) i, val i)) ∨
        esp ≠ 0 ∧ ∃ i, size.toNat ≤ i ∧ i < (esp - newEsp esp size).toNat ∧
          w = (addr (newEsp esp size) i, 0) := by
  have distance := distance_toNat fits
  rw [stores, List.mem_append, List.mem_map, List.mem_map]
  refine or_congr ?_ ?_
  · simp only [List.mem_range, eq_comm]
  · rcases distance_top esp size le with end_ | ⟨zero, -⟩
    · by_cases zero : esp = 0
      · simp [zero]
      have above : (newEsp esp size + size).toNat = (newEsp esp size).toNat + size.toNat := by
        have := esp.isLt
        rw [BitVec.toNat_add, Nat.mod_eq_of_lt (by omega)]
      simp only [List.mem_range, above, addr, virtualAddrEnd]
      have := esp.isLt
      constructor
      · rintro ⟨i, lt, rfl⟩
        refine ⟨zero, size.toNat + i, by omega, by omega, ?_⟩
        rw [Nat.mod_eq_of_lt (by omega), Nat.add_assoc]
      · rintro ⟨-, i, low, high, rfl⟩
        refine ⟨i - size.toNat, by omega, ?_⟩
        rw [Nat.mod_eq_of_lt (by omega), Nat.add_assoc, Nat.add_sub_cancel' low]
    · simp [zero]

theorem stores_lt {w : Nat × UInt8} (mem : w ∈ stores esp size val) : w.1 < virtualAddrEnd := by
  rw [stores, List.mem_append, List.mem_map, List.mem_map] at mem
  rcases mem with ⟨i, -, rfl⟩ | ⟨i, lt, rfl⟩
  · exact Nat.mod_lt _ (by decide)
  · have := esp.isLt
    simp only [List.mem_range] at lt
    simp only [virtualAddrEnd]
    omega

theorem wanted_addr (s : Space) {i : Nat} (lt : i < virtualAddrEnd) :
    wanted s esp size val (addr (newEsp esp size) i) =
      if i < size.toNat then some (val i)
      else if i < (esp - newEsp esp size).toNat then some 0
      else s.read (addr (newEsp esp size) i) := by
  have below := (newEsp esp size).isLt
  have index : (addr (newEsp esp size) i + virtualAddrEnd - (newEsp esp size).toNat) % virtualAddrEnd =
      i := by
    simp only [addr, virtualAddrEnd] at *
    omega
  simp only [wanted, index]

/-- Every address is so many bytes above the new stack pointer. -/
theorem exists_addr (esp' : BitVec 32) {v : Nat} (lt : v < virtualAddrEnd) :
    ∃ i < virtualAddrEnd, v = addr esp' i := by
  have below := esp'.isLt
  refine ⟨(v + virtualAddrEnd - esp'.toNat) % virtualAddrEnd, Nat.mod_lt _ (by decide), ?_⟩
  simp only [addr, virtualAddrEnd] at *
  omega

theorem wanted_stored (s : Space) (fits : size.toNat + (esp - size).toNat % 4 < virtualAddrEnd)
    (le : (newEsp esp size).toNat + (esp - newEsp esp size).toNat ≤ virtualAddrEnd)
    {w : Nat × UInt8} (mem : w ∈ stores esp size val) :
    wanted s esp size val w.1 = some w.2 := by
  have distance := distance_toNat fits
  rcases (mem_stores fits le).mp mem with ⟨i, lt, rfl⟩ | ⟨-, i, low, high, rfl⟩
  · rw [wanted_addr s (by omega), if_pos lt]
  · rw [wanted_addr s (by omega), if_neg (by omega), if_pos high]

/-- After a walk without a failure the range does not wrap, and lies in mapped user pages. -/
theorem mapAndClear_range {s : Space} {esp' : BitVec 32} {len : Nat}
    (ok : (s.mapAndClear (pagesOf esp'.toNat len)).2 = true) :
    (0 < len → esp'.toNat + len ≤ virtualAddrEnd) ∧ ∀ i < len, userMemStart ≤ addr esp' i ∧
      ∃ c, (s.mapAndClear (pagesOf esp'.toNat len)).1.cell (addr esp' i) = some c := by
  have below := esp'.isLt
  have each : ∀ i < len, userPageStart ≤ pageOf (esp'.toNat + i) * pageSize ∧
      ∃ f, (s.mapAndClear (pagesOf esp'.toNat len)).1.page (pageOf (esp'.toNat + i)) = .mapped f := by
    intro i lt
    obtain ⟨v, mem, same⟩ : Visits (pagesOf esp'.toNat len) (pageOf (esp'.toNat + i)) :=
      visits_pagesOf lt
    rw [← same]
    exact Space.mapAndClear_user ok mem
  have start : userPageStart = userMemStart := rfl
  refine ⟨fun pos => ?_, fun i lt => ?_⟩
  · -- page 0 would be the next one
    by_contra wraps
    have user := (each (virtualAddrEnd - esp'.toNat) (by simp only [virtualAddrEnd] at *; omega)).1
    have zero : pageOf (esp'.toNat + (virtualAddrEnd - esp'.toNat)) = 0 := by
      simp only [pageOf, pageSize, virtualAddrEnd]
      omega
    rw [zero, start] at user
    simp [userMemStart] at user
  · obtain ⟨user, f, here⟩ := each i lt
    have page : pageOf (addr esp' i) = pageOf (esp'.toNat + i) := by
      rw [pageOf, pageOf, addr, Nat.mod_mod]
    refine ⟨?_, (f, addr esp' i % pageSize), Space.cell_some.mpr ⟨page ▸ here, rfl⟩⟩
    rw [start] at user
    simp only [pageOf, addr, pageSize, userMemStart, virtualAddrEnd] at user ⊢
    omega

/-! ### What a call leaves -/

/-- A call that has pushed ends with the walk and the stores. -/
theorem pushVal_returned {s s' : Space} {esp' : BitVec 32} {stored : List Nat} (pos : size ≠ 0)
    (done : pushVal s esp size val = .returned 0 s' esp' stored) :
    ∃ s₁, s.mapAndClear (pagesOf (newEsp esp size).toNat (esp - newEsp esp size).toNat) = (s₁, true) ∧
      s₁.storeAll (stores esp size val) = some s' ∧ esp' = newEsp esp size ∧
      stored = (stores esp size val).map Prod.fst := by
  rw [pushVal, if_neg pos] at done
  split at done
  · cases done
  · rename_i s₁ walk
    split at done
    · cases done
    · rename_i s'' all
      cases done
      exact ⟨s₁, walk, all, rfl, rfl⟩

theorem pushVal_failed {s s' : Space} {esp' : BitVec 32} {stored : List Nat} {r : Int} (neg : r < 0)
    (done : pushVal s esp size val = .returned r s' esp' stored) :
    esp' = esp ∧
      s' = (s.mapAndClear (pagesOf (newEsp esp size).toNat (esp - newEsp esp size).toNat)).1 := by
  rw [pushVal] at done
  split at done
  · cases done
    omega
  · split at done
    · rename_i s₁ walk
      cases done
      exact ⟨rfl, by rw [walk]⟩
    · split at done
      · cases done
      · cases done
        omega

section
variable {s s₁ s' : Space} (ext : s.Extends s₁)
  (done : s₁.storeAll (stores esp size val) = some s')
include ext done

/-- A byte that was mapped is still mapped to its cell. -/
theorem cell_pushed {v : Nat} {c : Nat × Nat} (here : s.cell v = some c) : s'.cell v = some c := by
  have page := (Space.storeAll_cases done).1
  rw [Space.cell_some, page]
  exact Space.cell_some.mp (ext.cell here).1

/-- With a clean store every address shows what it is to show. -/
theorem read_pushed (wf : s.Wf) (clean : Clean s esp size val)
    (le : (newEsp esp size).toNat + (esp - newEsp esp size).toNat ≤ virtualAddrEnd) {i : Nat}
    (lt : i < virtualAddrEnd) {c : Nat × Nat} (here : s₁.cell (addr (newEsp esp size) i) = some c)
    (known : i < (esp - newEsp esp size).toNat ∨ s.cell (addr (newEsp esp size) i) = some c) :
    s'.read (addr (newEsp esp size) i) = wanted s esp size val (addr (newEsp esp size) i) := by
  obtain ⟨page, -, cells⟩ := Space.storeAll_cases done
  have distance := distance_toNat clean.fits
  have shown : s'.read (addr (newEsp esp size) i) = some (s'.phys c) := by
    have cell : s'.cell (addr (newEsp esp size) i) = some c := by
      rw [Space.cell_some, page]
      exact Space.cell_some.mp here
    rw [Space.read, cell, Option.map_some]
  rw [shown]
  rcases cells c with ⟨w, mem, cell, eq⟩ | ⟨others, eq⟩
  · have last := wanted_stored s clean.fits le mem
    rw [eq, ← last]
    have lt' : addr (newEsp esp size) i < virtualAddrEnd := Nat.mod_lt _ (by decide)
    rcases ext.shared wf here cell lt' (stores_lt mem) with same | ⟨hv, hw⟩
    · rw [same]
    · exact (clean.apart _ lt' w.1 (List.mem_map_of_mem mem) ⟨c, hv, hw⟩).symm
  · -- no store has reached the cell, so the address itself has not been stored to
    have value : ¬ i < size.toNat := fun lt =>
      others _ ((mem_stores clean.fits le).mpr (.inl ⟨i, lt, rfl⟩)) here
    rw [wanted_addr s lt, if_neg value, eq]
    split
    · rename_i inside
      have zero : esp = 0 := by
        by_contra ne
        exact others _ ((mem_stores clean.fits le).mpr
          (.inr ⟨ne, i, not_lt.mp value, inside, rfl⟩)) here
      obtain ⟨mapped, off⟩ := Space.cell_some.mp here
      rcases ext.fresh _ _ mapped with old | ⟨-, cleared⟩
      · have was : s.cell (addr (newEsp esp size) i) = some c := Space.cell_some.mpr ⟨old, off⟩
        have read : s.read (addr (newEsp esp size) i) = some (s.phys c) := by
          rw [Space.read, was, Option.map_some]
        rw [(ext.cell was).2]
        rcases clean.top zero i (not_lt.mp value) inside _ read with z | ⟨v, mem, d, hd, hv⟩
        · rw [z]
        · obtain ⟨w, memW, rfl⟩ := List.mem_map.mp mem
          rw [was] at hd
          cases hd
          exact absurd (ext.cell hv).1 (others w memW)
      · exact congrArg some (cleared c.2)
    · rename_i outside
      have was := known.resolve_left outside
      rw [(ext.cell was).2, Space.read, was, Option.map_some]

end

/-- A store that reaches every address reaches the kernel. -/
theorem Pushed.fits {s s' : Space} (pos : 0 < size.toNat) (pushed : Pushed s esp size val s'
    (newEsp esp size) ((stores esp size val).map Prod.fst)) :
    size.toNat + (esp - size).toNat % 4 < virtualAddrEnd := by
  by_contra wide
  have below := (newEsp esp size).isLt
  have rounded := newEsp_toNat esp size
  -- address 4 is reached: the new stack pointer is a multiple of 4
  have four : (4, val ((virtualAddrEnd + 4 - (newEsp esp size).toNat) % virtualAddrEnd)) ∈
      stores esp size val := by
    refine List.mem_append.mpr (.inl (List.mem_map.mpr ⟨_, List.mem_range.mpr ?_,
      Prod.ext ?_ rfl⟩)) <;> simp only [addr, virtualAddrEnd] at * <;> omega
  have user := pushed.user 4 (List.mem_map.mpr ⟨_, four, rfl⟩)
  simp [userMemStart] at user

theorem Pushed.read {s s' : Space} {stored : List Nat}
    (pushed : Pushed s esp size val s' (newEsp esp size) stored) {v : Nat} (lt : v < virtualAddrEnd)
    {c : Nat × Nat} (here : s.cell v = some c) : s'.read v = wanted s esp size val v := by
  obtain ⟨i, small, rfl⟩ := exists_addr (newEsp esp size) lt
  have read : s.read (addr (newEsp esp size) i) = some (s.phys c) := by
    rw [Space.read, here, Option.map_some]
  rw [wanted_addr s small]
  split
  · exact pushed.value i ‹_›
  · split
    · exact pushed.zeros i (by omega) ‹_›
    · rw [read]
      refine pushed.rest _ (Nat.mod_lt _ (by decide)) (fun j inside same => ?_) _ read
      have below := (newEsp esp size).isLt
      have len := size.isLt
      have dist := (esp - newEsp esp size).isLt
      simp only [addr, virtualAddrEnd] at same small
      omega

/-- The exact condition: a `push_val` that returns 0 is the store it is to be if and only if
the store is clean, and one that fails has changed neither the stack pointer nor a byte that
was mapped. -/
theorem push_val_iff {s : Space} (wf : s.Wf) (pos : size ≠ 0) :
    (∀ s' esp' stored, pushVal s esp size val = .returned 0 s' esp' stored →
      (Pushed s esp size val s' esp' stored ↔ Clean s esp size val)) ∧
    ∀ r s' esp' stored, pushVal s esp size val = .returned r s' esp' stored → r < 0 →
      esp' = esp ∧ ∀ v b, s.read v = some b → s'.read v = some b := by
  have grown : s.Extends
      (s.mapAndClear (pagesOf (newEsp esp size).toNat (esp - newEsp esp size).toNat)).1 :=
    wf.extends.walk wf _
  refine ⟨fun s' esp' stored returned => ?_, fun r s' esp' stored returned neg => ?_⟩
  swap
  · obtain ⟨same, rfl⟩ := pushVal_failed neg returned
    exact ⟨same, fun v b => grown.read⟩
  obtain ⟨s₁, walk, done, rfl, rfl⟩ := pushVal_returned pos returned
  have range := mapAndClear_range (by rw [walk])
  rw [walk] at grown range
  have positive : 0 < size.toNat := by
    refine Nat.pos_of_ne_zero fun zero => pos (BitVec.eq_of_toNat_eq zero)
  constructor
  · intro pushed
    have fits := pushed.fits positive
    have distance := distance_toNat fits
    have le := range.1 (by omega)
    have shows : ∀ v < virtualAddrEnd, ∀ c, s.cell v = some c →
        some (s'.phys c) = wanted s esp size val v := fun v lt c here => by
      have still := cell_pushed grown done here
      rw [← pushed.read lt here, Space.read, still, Option.map_some]
    refine ⟨fits, fun v lt w stored ⟨c, hv, hw⟩ => ?_, fun zero i low high b read => ?_⟩
    · obtain ⟨w, mem, rfl⟩ := List.mem_map.mp stored
      rw [← shows v lt c hv, shows w.1 (stores_lt mem) c hw]
    · obtain ⟨c, here, rfl⟩ := Option.map_eq_some_iff.mp read
      have cleared := shows (addr (newEsp esp size) i) (Nat.mod_lt _ (by decide)) c here
      rw [wanted_addr s (by omega), if_neg (by omega), if_pos high] at cleared
      rcases (Space.storeAll_cases done).2.2 c with ⟨w, mem, cell, -⟩ | ⟨-, same⟩
      · right
        have lt := stores_lt mem
        rcases grown.shared wf (grown.cell here).1 cell (Nat.mod_lt _ (by decide)) lt with
          eq | ⟨-, hw⟩
        · exact ⟨w.1, List.mem_map_of_mem mem, c, here, eq ▸ here⟩
        · exact ⟨w.1, List.mem_map_of_mem mem, c, here, hw⟩
      · left
        rw [same, (grown.cell here).2] at cleared
        exact Option.some.inj cleared
  · intro clean
    have distance := distance_toNat clean.fits
    have le := range.1 (by omega)
    have inside : ∀ i < (esp - newEsp esp size).toNat,
        s'.read (addr (newEsp esp size) i) = wanted s esp size val (addr (newEsp esp size) i) :=
      fun i lt => by
        obtain ⟨-, c, here⟩ := range.2 i lt
        exact read_pushed grown done wf clean le (by omega) here (.inl lt)
    refine ⟨?_, ⟨(esp - size).toNat % 4, by omega, ?_⟩, fun i lt => ?_, fun i low high => ?_,
      fun v lt outside b read => ?_, fun v mem => ?_⟩
    · rw [newEsp_toNat]
      omega
    · refine BitVec.eq_of_toNat_eq ?_
      have fits := clean.fits
      simp only [virtualAddrEnd] at fits
      rw [distance, BitVec.toNat_add, BitVec.toNat_ofNat]
      omega
    · rw [inside i (by omega), wanted_addr s (by omega), if_pos lt]
    · rw [inside i high, wanted_addr s (by omega), if_neg (by omega), if_pos high]
    · obtain ⟨i, small, rfl⟩ := exists_addr (newEsp esp size) lt
      obtain ⟨c, here, rfl⟩ := Option.map_eq_some_iff.mp read
      have value : ¬ i < size.toNat := fun below => outside i (.inl below) rfl
      have above : ¬ i < (esp - newEsp esp size).toNat := fun below => outside i (.inr below) rfl
      rw [read_pushed grown done wf clean le small (grown.cell here).1 (.inr here),
        wanted_addr s small, if_neg value, if_neg above, read]
    · obtain ⟨w, memW, rfl⟩ := List.mem_map.mp mem
      rcases (mem_stores clean.fits le).mp memW with ⟨i, lt, rfl⟩ | ⟨-, i, -, lt, rfl⟩
      · exact (range.2 i (by omega)).1
      · exact (range.2 i lt).1

end

/-- The last page of the address space is mapped, with other bytes than zeros in it. -/
def lastPage : Space where
  page := fun q => if q = 1048575 then .mapped 5 else .unmapped true
  phys := fun _ => 0xAA
  free := [6]
  tableFor := fun _ => true

theorem wf_lastPage : lastPage.Wf where
  nodup := by decide
  used := fun q f here free => by
    cases List.mem_singleton.mp free
    simp only [lastPage] at here
    split at here <;> cases here

theorem push_val_iff_word :
    ∃ s' stored, pushVal lastPage 0 4 (fun _ => 7) = .returned 0 s' 0xFFFFFFFC stored ∧
      (Pushed lastPage 0 4 (fun _ => 7) s' 0xFFFFFFFC stored ↔ Clean lastPage 0 4 fun _ => 7) :=
  ⟨_, _, rfl, (push_val_iff wf_lastPage (by decide)).1 _ _ _ rfl⟩

/-- A byte pushed from the top of the address space, the stack pointer 0: the three bytes
above it are not cleared, as none of their addresses is below 0. -/
theorem top_not_cleared :
    lastPage.Wf ∧ ∃ s' stored, pushVal lastPage 0 1 (fun _ => 7) = .returned 0 s' 0xFFFFFFFC stored ∧
      s'.read 0xFFFFFFFD = some 0xAA ∧ ¬ Pushed lastPage 0 1 (fun _ => 7) s' 0xFFFFFFFC stored := by
  refine ⟨wf_lastPage, _, _, rfl, rfl, fun pushed => ?_⟩
  have cleared := pushed.zeros 1 (by decide) (by decide)
  cases cleared

end OsKernel.Loader.PushVal
