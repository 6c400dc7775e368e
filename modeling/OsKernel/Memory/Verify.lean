/-
The handlers that work in the directory of their own process leave it showing the
flat memory of the process: page faults, `new_pages`, `remove_pages`, exits,
reaping and the stores into user buffers.
-/

import OsKernel.Memory.Building

namespace OsKernel.Memory

open OsKernel.Vm Prog Sys

variable {full : Bool} {t d : Nat} {held : Option Nat}

/-- The page directory manager's questions change nothing. -/
theorem triple_checkUserPage {P : Kernel → Prop} (stable : (sys full).Stable t P) (e v : Nat) :
    (sys full).Triple t P (act (.checkUserPage e v)) fun r s => P s ∧ r = checkUserPage s.mem.vm e v :=
  triple_read (a := .checkUserPage e v) stable _ fun _ => rfl

theorem triple_getAvailability {P : Kernel → Prop} (stable : (sys full).Stable t P) (e v : Nat) :
    (sys full).Triple t P (act (.getAvailability e v))
      fun r s => P s ∧ r = getAvailability s.mem.vm e v :=
  triple_read (a := .getAvailability e v) stable _ fun _ => rfl

theorem triple_getAccess {P : Kernel → Prop} (stable : (sys full).Stable t P) (e v : Nat) :
    (sys full).Triple t P (act (.getAccess e v)) fun r s => P s ∧ r = getAccess s.mem.vm e v :=
  triple_read (a := .getAccess e v) stable _ fun _ => rfl

/-- What an answer of `check_user_page` says about the pages of the directory: a PDE
that is not present stands for all its pages. -/
def Seen (page : Nat) : Option MappingInfo → (Nat → Option PageState) → Prop
  | some .pdeNotPresent, st =>
      ∀ q, q / pteCount = page / pteCount → ∃ x, st q = some x ∧ Unmapped x
  | some .pteNotPresent, st => ∃ x, st page = some x ∧ Unmapped x
  | some .zeroFrameMapped, st => ∃ x, st page = some x ∧ OnZero x
  | some .newFrameMapped, st => ∃ pte, st page = some (.mapped pte)
  | none, _ => True

theorem checkUserPage_seen (m : Mem) (d v : Nat) :
    Seen (pageOf v) (checkUserPage m.vm d v) (m.state d) := by
  unfold checkUserPage
  cases hd : m.vm.dirs d with
  | none => trivial
  | some pd =>
      have state : ∀ q, m.state d q = some (stateOf pd q) := state_of_space (abs_space_some hd)
      dsimp only
      split
      · trivial
      rcases findFrame_cases pd v with ⟨avail, found, -⟩ | ⟨pte, found, -, -, here⟩ |
        ⟨pte, found, -, -, here⟩ <;> simp only [found]
      · intro q same
        have absent : pd (q / pteCount) = .absent avail := by
          have : pd (pdeIdx v) = .absent avail := by
            unfold findFrame at found
            split at found
            · cases found
              assumption
            · split at found <;> cases found
          rw [same]
          exact this
        refine ⟨.unmapped avail, ?_, avail, rfl⟩
        rw [state, stateOf, absent]
      · exact ⟨_, by rw [state, here], _, rfl⟩
      · split
        · rename_i zero
          exact ⟨_, by rw [state, here], pte, rfl, zero⟩
        · exact ⟨pte, by rw [state, here]⟩

/-! ### Page faults -/

/-- The thread runs in the directory and, unless it shares it, knows something of
its pages. -/
def HereKnown (known : (Nat → Option PageState) → Prop) (held : Option Nat) (t d : Nat)
    (s : Kernel) : Prop :=
  ∃ p f, At none held t d f s p ∧ (s.shared p = false → known (s.mem.state d))

theorem here_of_known {known : (Nat → Option PageState) → Prop} {s : Kernel}
    (h : HereKnown known held t d s) : Here none held t d s := by
  obtain ⟨p, f, h, -⟩ := h
  exact ⟨p, f, h⟩

theorem HereKnown.stable {known : (Nat → Option PageState) → Prop} :
    (sys full).Stable t (HereKnown known held t d) := by
  rintro s s' ⟨p, f, h, knows⟩ rely
  refine ⟨p, f, h.of_rely rely, fun hs => ?_⟩
  rw [rely.shared p h.thread] at hs
  rw [state_congr (rely.space d (h.owner hs))]
  exact knows hs

theorem triple_checkUserPage_here (v : Nat) :
    (sys full).Triple t (Here none held t d) (act (.checkUserPage d v))
      fun r => HereKnown (Seen (pageOf v) r) held t d := by
  refine Triple.conseq (triple_checkUserPage Here.stable d v) (fun _ _ h => h) fun r s h => ?_
  obtain ⟨⟨p, f, h⟩, rfl⟩ := h
  exact ⟨p, f, h, fun _ => checkUserPage_seen s.mem d v⟩

/-- The zero frame taken from a page whose fault is repaired: the page showed zeros
and shows them still, so the flat memory is not touched. -/
theorem triple_unmapFrame_repair (v : Nat) :
    (sys full).Triple t (HereKnown (Seen (pageOf v) (some .zeroFrameMapped)) held t d)
      (act (.unmapFrame d v false)) fun _ => Here none held t d := by
  refine Sys.Triple.perform HereKnown.stable ?_
  rintro s inv - - ⟨p, f, h, knows⟩
  rcases unmapFrame_mem inv.mem d v with ⟨fails, same⟩ | ⟨pte, ok, mapped, set⟩
  · obtain ⟨inv', guar, h'⟩ := step_unchanged inv h same
    refine ⟨_, false, ?_, inv', guar, fun _ => ⟨p, f, h'⟩⟩
    simp [sys, Kernel.exec, Kernel.setVm, fails]
  · have bytes : s.shared p = false → ∀ w, UserAddr w →
        (s.mem.withVm (unmapFrame s.mem.vm d v).2).byteAt d w = s.mem.byteAt d w := by
      intro hs w user
      by_cases page : pageOf w = pageOf v
      · obtain ⟨x, state, pte', rfl, zero⟩ := knows hs
        rw [byteAt_unmapped (page ▸ set.now), byteAt_zero inv.mem (page ▸ state) zero]
      · exact set.bytes w user page
    obtain ⟨inv', guar, h'⟩ := step_same inv h set.confined bytes
    refine ⟨_, true, ?_, inv', guar, fun _ => ⟨p, f, h'⟩⟩
    simp [sys, Kernel.exec, Kernel.setVm, ok]

theorem triple_repairPage (present write : Bool) (v : Nat) :
    (sys full).Triple t (Here none held t d) (repairPage d present write v)
      fun _ => Here none held t d := by
  unfold repairPage
  cases present with
  | false =>
      rw [if_pos rfl]
      refine Triple.bind (triple_getAvailability Here.stable d v) fun r => ?_
      refine Triple.conseq ?_ (fun s _ h => h.1) fun _ _ h => h
      rcases r with - | - | -
      · exact Triple.ret fun _ _ h => h
      · exact Triple.ret fun _ _ h => h
      · cases write with
        | false => exact triple_mapZeroFrame_here v
        | true => exact triple_mapAndClearNew_here v
  | true =>
      rw [if_neg (by simp)]
      refine Triple.bind (triple_checkUserPage_here v) fun r => ?_
      have other : (sys full).Triple t (HereKnown (Seen (pageOf v) r) held t d) (pure false)
          fun _ => Here none held t d :=
        Triple.ret fun _ _ h => here_of_known h
      rcases r with - | - | - | - | -
      · exact other
      · exact other
      · exact other
      · refine Triple.bind (triple_unmapFrame_repair v) fun ok => ?_
        cases ok with
        | false => exact Triple.ret fun _ _ h => h
        | true => exact triple_mapAndClearNew_here v
      · exact other

theorem triple_handlePageFault (present write : Bool) (v : Nat) :
    (sys full).Triple t (Here none held t d) (handlePageFault d present write v)
      fun _ => Here none held t d := by
  refine Triple.bind (triple_repairPage present write v) fun ok => ?_
  cases ok with
  | true => exact Triple.ret fun _ _ h => h
  | false => exact triple_vanish_here

/-- A program that is given the PCB of its thread. -/
theorem triple_of_current {k : Option Proc → Program Unit}
    (none : (sys full).Triple t (Ready t) (k none) fun _ => Ready t)
    (some : ∀ pr, (sys full).Triple t (Here Option.none Option.none t pr.dir) (k (some pr))
      fun _ => Here Option.none Option.none t pr.dir) :
    (sys full).Triple t (Ready t) (act .current >>= k) fun _ => Ready t := by
  refine Triple.bind (triple_current Ready.stable) fun r => ?_
  cases r with
  | none => exact Triple.conseq none (fun s _ h => h.1) fun _ _ h => h
  | some pr =>
      refine Triple.conseq (some pr) (fun s _ h => ?_) fun _ _ h => ready_of_here h
      obtain ⟨⟨p, d, f, h⟩, eq⟩ := h
      obtain ⟨pr', hp, rfl⟩ := Option.map_eq_some_iff.mp h.dir
      rw [Kernel.proc, h.thread, Option.bind_some, hp, Option.some.injEq] at eq
      subst eq
      exact ⟨p, f, h⟩

/-- What follows the outcome of a user access. -/
theorem triple_after_access (v : Nat) (write : Bool) (outcome : Completion) :
    (sys full).Triple t (Ready t) (match outcome with
      | .done => pure ()
      | .fault present => do
          match ← act .current with
          | none => pure ()
          | some pr => if pr.guest then pure () else handlePageFault pr.dir present write v)
      fun _ => Ready t := by
  cases outcome with
  | done => exact Triple.ret fun _ _ h => h
  | fault present =>
      refine triple_of_current (Triple.ret fun _ _ h => h) fun pr => ?_
      dsimp only
      split
      · exact Triple.ret fun _ _ h => h
      · exact triple_handlePageFault present write v

theorem triple_load_call (v : Nat) :
    (sys full).Triple t (Ready t) (load v) fun _ => Ready t :=
  Triple.bind (triple_load v) fun outcome => triple_after_access v false outcome

theorem triple_store_call (v : Nat) (b : UInt8) :
    (sys full).Triple t (Ready t) (store v b) fun _ => Ready t :=
  Triple.bind (triple_store v b) fun outcome => triple_after_access v true outcome

/-! ### Pages on request -/

theorem triple_releasePages (page : Nat) (js : List Nat) :
    (sys full).Triple t (Here none held t d) (releasePages d page js)
      fun _ => Here none held t d := by
  induction js with
  | nil => exact Triple.ret fun _ _ h => h
  | cons j js ih =>
      refine Triple.bind (triple_unmapFrame_here _) fun _ => ?_
      exact Triple.bind (triple_setAvailability_here _ 0) fun _ => ih

theorem triple_newPage (v : Nat) :
    (sys full).Triple t (Here none held t d) (newPage d v) fun _ => Here none held t d := by
  refine Triple.bind (triple_getAvailability Here.stable d v) fun r => ?_
  refine Triple.conseq ?_ (fun s _ h => h.1) fun _ _ h => h
  rcases r with - | - | -
  · exact Triple.ret fun _ _ h => h
  · refine Triple.bind (triple_setAvailability_here v 1) fun ok => ?_
    cases ok with
    | false => exact Triple.ret fun _ _ h => h
    | true =>
        refine Triple.bind (triple_mapAndClearNew_here v) fun ok => ?_
        cases ok with
        | true => exact Triple.ret fun _ _ h => h
        | false =>
            exact Triple.bind (triple_setAvailability_here v 0) fun _ => Triple.ret fun _ _ h => h
  · exact Triple.ret fun _ _ h => h

theorem triple_newPagesLoop (page : Nat) (n i : Nat) :
    (sys full).Triple t (Here none held t d) (newPagesLoop d page i n)
      fun _ => Here none held t d := by
  induction n generalizing i with
  | zero => exact Triple.ret fun _ _ h => h
  | succ n ih =>
      refine Triple.bind (triple_newPage _) fun ok => ?_
      cases ok with
      | true => exact ih (i + 1)
      | false => exact Triple.bind (triple_releasePages page _) fun _ => Triple.ret fun _ _ h => h

theorem triple_newPages (base : Nat) (len : Int) (physFrames : Nat) :
    (sys full).Triple t (Ready t) (newPages base len physFrames) fun _ => Ready t := by
  refine triple_of_current (Triple.ret fun _ _ h => h) fun pr => ?_
  dsimp only
  split
  · refine Triple.bind (triple_newPagesLoop base _ 0) fun ok => ?_
    cases ok with
    | false => exact Triple.ret fun _ _ h => h
    | true =>
        refine Triple.bind (triple_malloc_here recordSize) fun ok => ?_
        cases ok with
        | true => exact triple_setAllocations _
        | false => exact triple_releasePages base _
  · exact Triple.ret fun _ _ h => h

/-- A loop over pages that leaves the directory showing the flat memory. -/
theorem triple_forAll_here {α : Type} {body : α → Program Bool}
    (each : ∀ x, (sys full).Triple t (Here none held t d) (body x) fun _ => Here none held t d)
    (xs : List α) :
    (sys full).Triple t (Here none held t d) (forAll body xs) fun _ => Here none held t d := by
  refine Triple.conseq (Triple.forAll (I := fun _ => Here none held t d)
    (F := Here none held t d) (fun x xs => ?_) xs) (fun _ _ h => h) fun ok _ h => ?_
  · refine Triple.conseq (each x) (fun _ _ h => h) fun ok _ h => ?_
    cases ok <;> exact h
  · cases ok <;> exact h

theorem triple_removePage (v : Nat) :
    (sys full).Triple t (Here none held t d) (removePage d v) fun _ => Here none held t d := by
  refine Triple.bind (triple_unmapFrame_here v) fun ok => ?_
  cases ok with
  | true => exact triple_setAvailability_here v 0
  | false => exact Triple.ret fun _ _ h => h

theorem triple_removePages (base : Nat) :
    (sys full).Triple t (Ready t) (removePages base) fun _ => Ready t := by
  refine triple_of_current (Triple.ret fun _ _ h => h) fun pr => ?_
  dsimp only
  split
  · exact Triple.ret fun _ _ h => h
  · refine Triple.bind (triple_setAllocations _) fun _ => ?_
    exact Triple.bind (triple_forAll_here triple_removePage _) fun _ => Triple.ret fun _ _ h => h

/-! ### Exits and threads -/

theorem triple_vanish : (sys full).Triple t (Ready t) vanish fun _ => Ready t := by
  refine triple_of_current (Triple.ret fun _ _ h => h) fun pr => ?_
  exact triple_vanish_here

theorem triple_taskVanish : (sys full).Triple t (Ready t) taskVanish fun _ => Ready t :=
  Triple.bind triple_killSiblings fun _ => triple_vanish

theorem triple_mallocs_here (sizes : List Nat) :
    (sys full).Triple t (Here none held t d) (mallocs sizes) fun _ => Here none held t d :=
  triple_forAll_here triple_malloc_here sizes

theorem triple_threadFork (whole : full = true) :
    (sys full).Triple t (Ready t) threadFork fun _ => Ready t := by
  have mallocs : (sys full).Triple t (Ready t) (mallocs [recordSize, recordSize])
      fun _ => Ready t := by
    rintro s inv live ⟨p, d, f, h⟩
    exact (triple_mallocs_here _ s inv live ⟨p, f, h⟩).mono fun _ _ h => ready_of_here h
  refine Triple.bind mallocs fun ok => ?_
  cases ok with
  | true => exact triple_newThread whole
  | false => exact Triple.ret fun _ _ h => h

/-! ### Stores into buffers of the user -/

theorem triple_writablePage (v : Nat) :
    (sys full).Triple t (Here none held t d) (writablePage d v) fun _ => Here none held t d := by
  refine Triple.bind (triple_checkUserPage Here.stable d v) fun r => ?_
  refine Triple.conseq ?_ (fun s _ h => h.1) fun _ _ h => h
  rcases r with - | info
  · exact Triple.ret fun _ _ h => h
  cases info with
  | pdeNotPresent | pteNotPresent =>
      refine Triple.bind (triple_getAvailability Here.stable d v) fun r => ?_
      refine Triple.conseq ?_ (fun s _ h => h.1) fun _ _ h => h
      rcases r with - | - | - <;> exact Triple.ret fun _ _ h => h
  | zeroFrameMapped => exact Triple.ret fun _ _ h => h
  | newFrameMapped =>
      refine Triple.bind (triple_getAccess Here.stable d v) fun r => ?_
      refine Triple.conseq ?_ (fun s _ h => h.1) fun _ _ h => h
      rcases r with - | - | - <;> exact Triple.ret fun _ _ h => h

theorem triple_isWritable (addr size : Nat) :
    (sys full).Triple t (Here none held t d) (isWritable d addr size) fun _ => Here none held t d := by
  unfold isWritable
  split
  · exact Triple.ret fun _ _ h => h
  split
  · exact triple_forAll_here triple_writablePage _
  · exact Triple.ret fun _ _ h => h

theorem triple_copyByte (whole : full = true) (v : Nat) (b : UInt8) :
    (sys full).Triple t (Here none held t d) (copyByte d v b) fun _ => Here none held t d := by
  refine Triple.bind (triple_copyOut whole v b) fun ok => ?_
  cases ok with
  | true => exact Triple.ret fun _ _ h => h
  | false =>
      refine Triple.bind (triple_handlePageFault false true v) fun _ => ?_
      exact Triple.bind (triple_copyOut whole v b) fun _ => Triple.ret fun _ _ h => h

theorem triple_copyBytes (whole : full = true) (bytes : List UInt8) (v : Nat) :
    (sys full).Triple t (Here none held t d) (copyBytes d v bytes)
      fun _ => Here none held t d := by
  induction bytes generalizing v with
  | nil => exact Triple.ret fun _ _ h => h
  | cons b bytes ih => exact Triple.bind (triple_copyByte whole v b) fun _ => ih (v + 1)

/-- A call that stores nothing into user memory needs no condition. -/
theorem triple_wait (statusPtr q : Nat) (status : List UInt8)
    (whole : statusPtr = 0 ∨ full = true) :
    (sys full).Triple t (Ready t) (wait statusPtr q status) fun _ => Ready t := by
  refine triple_of_current (Triple.ret fun _ _ h => h) fun pr => ?_
  have checked : (sys full).Triple t (Here none none t pr.dir)
      (if statusPtr = 0 then pure true else isWritable pr.dir statusPtr 4)
      fun _ => Here none none t pr.dir := by
    split
    · exact Triple.ret fun _ _ h => h
    · exact triple_isWritable statusPtr 4
  refine Triple.bind checked fun ok => ?_
  cases ok with
  | false => exact Triple.ret fun _ _ h => h
  | true =>
      refine Triple.bind (triple_detach q) fun r => ?_
      cases r with
      | none => exact Triple.ret fun _ _ h => h
      | some e =>
          have stored : (sys full).Triple t (Here none (some e) t pr.dir)
              (if statusPtr = 0 then pure () else copyBytes pr.dir statusPtr (status.take 4))
              fun _ => Here none (some e) t pr.dir := by
            split
            · exact Triple.ret fun _ _ h => h
            · rename_i ne
              exact triple_copyBytes (whole.resolve_left ne) _ _
          exact Triple.bind stored fun _ => triple_destructPageDir

theorem triple_fillBuffer (whole : full = true) (buf len : Nat) (bytes : List UInt8) :
    (sys full).Triple t (Ready t) (fillBuffer buf len bytes) fun _ => Ready t := by
  refine triple_of_current (Triple.ret fun _ _ h => h) fun pr => ?_
  refine Triple.bind (triple_isWritable buf len) fun ok => ?_
  cases ok with
  | true => exact triple_copyBytes whole _ _
  | false => exact Triple.ret fun _ _ h => h

theorem triple_getCursorPos (whole : full = true) (row col : Nat)
    (rowBytes colBytes : List UInt8) :
    (sys full).Triple t (Ready t) (getCursorPos row col rowBytes colBytes) fun _ => Ready t := by
  refine triple_of_current (Triple.ret fun _ _ h => h) fun pr => ?_
  refine Triple.bind (triple_isWritable row 4) fun ok => ?_
  cases ok with
  | false => exact Triple.ret fun _ _ h => h
  | true =>
      refine Triple.bind (triple_isWritable col 4) fun ok => ?_
      cases ok with
      | false => exact Triple.ret fun _ _ h => h
      | true =>
          exact Triple.bind (triple_copyBytes whole _ _) fun _ => triple_copyBytes whole _ _

theorem triple_deliver (whole : full = true) (bottom : Nat) (frame : List UInt8) :
    (sys full).Triple t (Ready t) (deliver bottom frame) fun _ => Ready t := by
  refine triple_of_current (Triple.ret fun _ _ h => h) fun pr => ?_
  exact triple_copyBytes whole _ _

end OsKernel.Memory
