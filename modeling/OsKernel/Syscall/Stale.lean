/-
Stale translations.

A call leaves no entry of the cache that is stale: a fault drops the entry of its page
first, `remove_pages` and a failed `exec` load `%cr3` again, and `fork` changes the pages
of the child only. There are two exceptions. `new_pages` gives pages back after a failure
without loading `%cr3`, and a successful `exec` makes pages of code read-only after it has
written them (`Spares`). `no_stale_of_run`: without these, every run of calls returns to
user mode with no stale entry.
-/

import OsKernel.Syscall.Cache

namespace OsKernel.Syscall

open OsKernel.Vm OsKernel.Memory Prog Sys
open OsKernel.Run
open OsKernel.Loader (orderly_machine Touches boot_vm bssElf)

section
variable {lax : Nat → Prop} {check : KAct → Prop} {e d t : Nat} {m m' : Machine}

/-! ### Faults -/

/-- The cache is clear, and has no entry for the page of `v`. -/
def Dropped (lax : Nat → Prop) (e v : Nat) (m : Machine) : Prop :=
  Clear lax e m ∧ m.tlb (pageOf v) = none

/-- `unmap_frame` leaves the other pages alone. -/
theorem state_unmapFrame (mem : Mem) {v q : Nat} (ne : q ≠ pageOf v) :
    (mem.withVm (unmapFrame mem.vm e v).2).state e q = mem.state e q := by
  rcases unmapFrame_spec mem.vm e v with ⟨-, abs⟩ | ⟨space, pte, vm', -, hd, -, -, abs, eq⟩
  · exact state_of_abs abs q
  · have space' : (unmapFrame mem.vm e v).2.abs.space = Function.update mem.vm.abs.space e
        (some (Function.update space (pageOf v) (.unmapped .available))) := by
      rw [eq, freeFrame_space, abs]
      rfl
    exact (state_of_update hd space').2 q ne

/-- A page without an entry may be unmapped. -/
theorem Dropped.unmap {v : Nat} {released : Bool} (h : Dropped lax e v m) :
    Clear lax e (Machine.exec (.mem (.unmapFrame e v released)) m).1 := by
  obtain ⟨clear, dropped⟩ := h
  refine ⟨clear.cr3, orderly_machine clear.orderly _, fun q x user cached => ?_⟩
  obtain ⟨pte, mapped, rest⟩ := clear.entries q x user cached
  refine ⟨pte, ?_, rest⟩
  have ne : q ≠ pageOf v := by
    rintro rfl
    cases dropped.symm.trans cached
  change (Kernel.exec m.running (.unmapFrame e v released) m.kernel).1.mem.state e q = _
  rw [(exec_unmapFrame m.running m.kernel e v released).2.1, state_unmapFrame _ ne, mapped]

/-- What comes after a fault is repaired, or not. -/
theorem mild_faultEnd (ok : Bool) :
    (lift (if ok then pure () else act (.vanish e) : Program Unit)).All (Mild lax e) := by
  refine mild_lift ?_
  split
  · trivial
  · exact all_perform trivial

theorem takes_handlePageFault (present write : Bool) (v : Nat) :
    Takes check (Dropped lax e v) (lift (handlePageFault e present write v)) fun _ => Clear lax e := by
  cases present with
  | false =>
      exact (takes_mild (mild_grows (grows_handlePageFault e write v))).conseq (fun _ h => h.1)
        fun _ _ h => h
  | true =>
      -- the first store to a page on the zero frame unmaps it, where it has no entry
      have repaired : Takes check (Dropped lax e v) (lift (repairPage e true write v))
          fun _ => Clear lax e := by
        rw [lift, repairPage, if_neg (by decide), hoist_bind, hoist_perform]
        refine Ends.bind (Q := fun _ => Dropped lax e v)
          (.perform fun m h _ _ => ⟨h.1.exec (a := .mem _) trivial, h.2⟩) fun r => ?_
        split
        swap
        · exact .ret fun _ h => h.1
        rw [hoist_bind, hoist_perform]
        refine Ends.bind (Q := fun _ => Clear lax e)
          (.perform fun m h _ _ => h.unmap) fun freed => ?_
        cases freed with
        | true => exact takes_mild (mild_grows (grows_mapAndClearNew e v))
        | false => exact .ret fun _ h => h
      rw [handlePageFault, lift, hoist_bind]
      exact Ends.bind repaired fun ok => takes_mild (mild_faultEnd ok)

theorem takes_pageFault (present write : Bool) (v : Nat) :
    Takes check (Clear lax e) (pageFault present write v) fun _ => Clear lax e := by
  refine Ends.bind (Q := fun _ => Dropped lax e v) (.perform fun m h _ _ => ?_)
    fun _ => ?_
  · refine ⟨h.exec (a := .ctl _) fun c => ⟨rfl, fun q => ?_⟩, Function.update_self ..⟩
    by_cases here : q = pageOf v
    · subst here
      exact .inr (Function.update_self ..)
    · exact .inl (Function.update_of_ne here ..)
  refine Ends.bind (Q := fun m₀ m => m₀.cr3 = e ∧ Dropped lax e v m)
    (.perform fun m h _ _ => ⟨h.1.cr3, h⟩) fun m₀ => ?_
  refine Ends.each fun m h => ?_
  rw [h.1]
  exact (takes_handlePageFault present write v).conseq (fun _ same => same ▸ h.2) fun _ _ h => h

theorem takes_userFault (present write : Bool) (v : Nat) :
    Takes check (Clear lax e) (userFault present write v) fun _ => Clear lax e := by
  refine Ends.bind (takes_mild (all_perform trivial)) fun pr => ?_
  cases pr with
  | none => exact .ret fun _ h => h
  | some pr =>
      dsimp only
      split
      · exact .ret fun _ h => h
      · exact takes_pageFault present write v

theorem takes_load (v : Nat) : Takes check (Clear lax e) (load v) fun _ => Clear lax e := by
  refine Ends.bind (takes_mild (all_perform trivial)) fun r => ?_
  cases r with
  | done => exact .ret fun _ h => h
  | fault present => exact takes_userFault present false v

theorem takes_store (v : Nat) (b : UInt8) :
    Takes check (Clear lax e) (store v b) fun _ => Clear lax e := by
  refine Ends.bind (takes_mild (all_perform trivial)) fun r => ?_
  cases r with
  | done => exact .ret fun _ h => h
  | fault present => exact takes_userFault present true v

/-! ### Pages on request -/

/-- The action gives a page back. -/
def Unmaps : KAct → Prop
  | .mem (.unmapFrame ..) => True
  | _ => False

instance (a : KAct) : Decidable (Unmaps a) := by
  unfold Unmaps
  split <;> infer_instance

/-- The actions of `new_pages`. -/
theorem Releases.mild {a : Act} (releases : Releases d a) :
    ¬ Unmaps (.mem a) → Mild lax e (.mem a) := by
  cases a with
  | constructPageDir | destructPageDir | setAccess | copyPage => exact releases.elim
  | unmapFrame => exact fun keeps => absurd trivial keeps
  | _ => exact fun _ => trivial

theorem newPages_mild (base : Nat) (len : Int) (physFrames : Nat) :
    (newPages base len physFrames).All fun a => ¬ Unmaps a → Mild lax e a := by
  have plain : ∀ {a : Act}, Gentle lax e a → (mem a).All fun a => ¬ Unmaps a → Mild lax e a :=
    fun gentle => all_perform fun _ => gentle
  have lifted : ∀ {α : Type} {d : Nat} {p : Program α}, p.All (Releases d) →
      (lift p).All fun a => ¬ Unmaps a → Mild lax e a := fun releases =>
    all_hoist (releases.mono fun _ releases => all_perform releases.mild)
  refine all_bind (all_perform fun _ => trivial) fun m => all_bind (plain trivial) fun r => ?_
  cases r with
  | none => trivial
  | some pr =>
  dsimp only
  split
  swap
  · trivial
  refine all_bind (lifted (releases_newPagesLoop _ _ _ _)) fun ok => ?_
  split
  swap
  · trivial
  refine all_bind (plain trivial) fun ok => ?_
  split
  · exact all_bind (plain trivial) fun _ => trivial
  · exact all_bind (lifted (releases_releasePages _ _ _)) fun _ => trivial

/-- A `new_pages` that gives no page back. -/
theorem takes_newPages (keeps : ∀ a, check a → ¬ Unmaps a) (base : Nat) (len : Int) (physFrames : Nat) :
    Takes check (Clear lax e) (newPages base len physFrames) fun _ => Clear lax e :=
  takes_checked ((newPages_mild base len physFrames).mono fun a mild go => mild (keeps a go))

/-- `remove_pages` -/
theorem Turn.clear_removePages {p : Nat} {pr : Proc} (turn : Turn m p pr) (h : Clear lax m.cr3 m)
    (base : Nat) : Clear lax (m.eval (Syscall.removePages base)).1.cr3
      (m.eval (Syscall.removePages base)).1 := by
  have orderly : (m.eval (Syscall.removePages base)).1.kernel.mem.vm.Orderly :=
    eval_keeps (P := fun m : Machine => m.kernel.mem.vm.Orderly)
      (fun a _ h => orderly_machine h a) _ h.orderly
  obtain ⟨m', r, ran, post⟩ := turn.ends
    (triple_removePages turn.wf turn.thread turn.proc turn.recorded base)
  rw [ran] at orderly ⊢
  cases r with
  | notFound =>
      obtain ⟨rfl, -⟩ := post
      exact h
  | stuck => exact post.elim
  | removed =>
      obtain ⟨count, rest, removed⟩ := post
      exact .of_empty orderly (by rw [removed.ctl])

/-! ### Fork -/

/-- A new directory is none that is there. -/
theorem takes_constructPageDir (h : Clear lax e m) (wf : m.kernel.mem.vm.abs.Wf)
    (present : Present e m.kernel.mem) : Takes check (· = m) (mem .constructPageDir) fun r m' =>
      Clear lax e m' ∧ ∀ child, r = some child → child ≠ e := by
  refine Ends.perform fun s here _ _ => ?_
  subst here
  have orderly := orderly_machine h.orderly (.mem .constructPageDir)
  obtain ⟨kernel, r, ran, -, -, cases⟩ := exec_constructPageDir wf
  rw [ran] at orderly ⊢
  rcases cases with ⟨rfl, dirs, -⟩ | ⟨rfl, made⟩
  · refine ⟨h.step orderly ⟨rfl, fun q => .inl rfl⟩ (.of_dirs (congrFun dirs e)), fun child no => ?_⟩
    cases no
  · have ne : s.kernel.mem.vm.nextDir ≠ e := by
      rintro rfl
      rw [Present, made.absent] at present
      cases present
    refine ⟨h.step orderly ⟨rfl, fun q => .inl rfl⟩ (.of_dirs ?_), fun child some => ?_⟩
    · change kernel.mem.vm.dirs e = _
      rw [made.dirs, Function.update_of_ne ne.symm]
    · exact Option.some.inj some ▸ ne

theorem mild_malloc (size : Nat) : (malloc size).All (Mild lax e) := by
  refine all_bind (all_perform trivial) fun ok => ?_
  split
  · exact all_bind (all_perform trivial) fun _ =>
      all_bind (all_perform fun _ => ⟨rfl, fun _ => .inl rfl⟩) fun _ => trivial
  · trivial

/-- A node of a list. -/
theorem mild_push {size : Nat} {f : Nat → Ctl → Ctl}
    (same : ∀ block c, (f block c).cr3 = c.cr3 ∧ (f block c).tlb = c.tlb) :
    (do
      match ← malloc size with
      | none => pure false
      | some block =>
          ctl (f block)
          pure true : KProgram Bool).All (Mild lax e) := by
  refine all_bind (mild_malloc size) fun block => ?_
  cases block with
  | none => trivial
  | some block =>
      refine all_bind (all_perform fun c => ?_) fun _ => trivial
      exact ⟨(same block c).1, fun q => .inl (congrFun (same block c).2 q)⟩

theorem mild_pushChild (p child : Nat) : (pushChild p child).All (Mild lax e) :=
  mild_push fun _ _ => ⟨rfl, rfl⟩

theorem mild_pushRecord (p : Nat) (record : Nat × Int) : (pushRecord p record).All (Mild lax e) :=
  mild_push fun _ _ => ⟨rfl, rfl⟩

theorem mild_pushTcb (p tid : Nat) : (pushTcb p tid).All (Mild lax e) :=
  mild_push fun _ _ => ⟨rfl, rfl⟩

/-- The copy of a process takes nothing away from the parent. -/
theorem mild_copyPcb {child : Nat} (ne : child ≠ e) (p : Nat) (allocs : List (Nat × Int)) :
    (copyPcb p e child allocs).All (Mild lax e) := by
  refine all_bind (mild_malloc _) fun buf => ?_
  cases buf with
  | none => trivial
  | some buf =>
  refine all_bind (mild_pushChild p child) fun ok => ?_
  split
  swap
  · exact all_bind (mild_tidy (tidy_free buf)) fun _ => trivial
  refine all_bind (mild_lift ((copies_forkPages e child _).mono fun _ h => h.gentle ne)) fun ok => ?_
  split
  swap
  · exact all_bind (mild_tidy (tidy_popChild p)) fun _ =>
      all_bind (mild_tidy (tidy_free buf)) fun _ => trivial
  refine all_bind (mild_tidy (tidy_free buf)) fun _ => ?_
  refine all_bind (all_forAll fun record _ => mild_pushRecord p record) fun ok => ?_
  split
  · trivial
  · exact all_bind (mild_tidy (tidy_dropRecords p)) fun _ =>
      all_bind (mild_tidy (tidy_popChild p)) fun _ => trivial

theorem mild_giveUp {child : Nat} (ne : child ≠ e) : (giveUp child).All (Mild lax e) :=
  all_bind (all_perform ne) fun _ => trivial

theorem mild_copyTcb {child : Nat} (ne : child ≠ e) (p : Nat) (allocs : List (Nat × Int)) :
    (copyTcb p child allocs).All (Mild lax e) := by
  refine all_bind (all_perform trivial) fun m => all_bind (mild_pushTcb p _) fun ok => ?_
  split
  swap
  · exact all_bind (mild_tidy (tidy_dropRecords p)) fun _ =>
      all_bind (mild_tidy (tidy_popChild p)) fun _ => mild_giveUp ne
  refine all_bind (mild_tidy (tidy_newTid p)) fun tid => all_bind (mild_malloc _) fun node => ?_
  cases node with
  | none =>
      exact all_bind (mild_tidy (tidy_popTcb p)) fun _ =>
        all_bind (mild_tidy (tidy_dropRecords p)) fun _ =>
          all_bind (mild_tidy (tidy_popChild p)) fun _ => mild_giveUp ne
  | some node =>
      exact all_bind (all_perform fun _ => ⟨rfl, fun _ => .inl rfl⟩) fun _ =>
        all_bind (all_perform trivial) fun _ => trivial

theorem takes_forkCtrlBlk (h : Clear lax e m) (wf : m.kernel.mem.vm.abs.Wf)
    (present : Present e m.kernel.mem) : Takes check (· = m) forkCtrlBlk fun _ => Clear lax e := by
  refine Ends.bind (Q := fun m₀ s => m₀ = m ∧ s = m)
    (.perform fun s here _ _ => ⟨here, here⟩) fun m₀ => ?_
  refine Ends.each fun s here => ?_
  rw [here.1, here.2]
  refine Ends.bind (Q := fun _ s => s = m) (.perform fun s here _ _ => here)
    fun pr => ?_
  have idle : Takes check (· = m) (pure none : KProgram (Option Nat)) fun _ => Clear lax e :=
    .ret fun s here => here ▸ h
  cases m.kernel.thread m.running with
  | none => exact idle
  | some p =>
  cases pr with
  | none => exact idle
  | some pr =>
  refine Ends.bind (takes_constructPageDir h wf present) fun child => ?_
  cases child with
  | none => exact .ret fun s h => h.1
  | some child =>
  refine Ends.each fun s here => ?_
  have ne := here.2 child rfl
  obtain rfl := h.cr3
  refine Ends.conseq (P := Clear lax m.cr3) ?_ (fun _ same => same ▸ here.1) fun _ _ h => h
  refine Ends.bind (takes_mild (mild_copyPcb ne p pr.allocs)) fun ok => takes_mild ?_
  split
  · exact mild_copyTcb ne p pr.allocs
  · exact mild_giveUp ne

theorem takes_fork (h : Clear lax e m) (wf : m.kernel.mem.vm.abs.Wf)
    (present : Present e m.kernel.mem) : Takes check (· = m) fork fun _ => Clear lax e := by
  refine Ends.bind (Q := fun _ s => s = m) (.perform fun s here _ _ => here)
    fun count => ?_
  split
  · exact takes_forkCtrlBlk h wf present
  · exact .ret fun s here => here ▸ h

/-! ### Exec -/

/-- The pages of code that hold no data: the loader writes them, and makes them read-only. -/
def CodeOnly (image : Image) (q : Nat) : Prop :=
  (Touches image.txt q ∨ Touches image.rodat q) ∧ ¬ Touches image.dat q

/-- Pages made read-only may have entries that grant stores. -/
theorem takes_closeAccess (addr size : Nat) :
    Takes check (Clear lax e) (lift (changeAccess e addr size 0)) fun _ =>
      Clear (fun q => lax q ∨ Visits (pagesOf addr size) q) e := by
  refine Ends.conseq (takes_mild (mild_lift (all_forAll fun v mem => all_perform ?_)))
    (fun m h => h.mono fun q => .inl) fun _ _ h => h
  exact fun _ => .inr (.inr ⟨v, mem, rfl⟩)

/-- `set_access` makes a page writable. -/
theorem takes_setAccess (v : Nat) :
    Takes check (Clear lax e) (mem (.setAccess e v 1)) fun ok m =>
      ok = true → Clear (fun q => lax q ∧ q ≠ pageOf v) e m := by
  refine Ends.perform fun m h _ _ works => ?_
  have after : Clear lax e (Machine.exec (.mem (.setAccess e v 1)) m).1 :=
    h.exec (a := .mem _) fun _ => .inl rfl
  refine ⟨after.cr3, after.orderly, fun q x user cached => ?_⟩
  obtain ⟨pte, mapped, frame, write⟩ := after.entries q x user cached
  refine ⟨pte, mapped, frame, fun grants => ?_⟩
  by_cases here : q = pageOf v
  · subst here
    rcases setAccess_spec m.kernel.mem.vm e v 1 with ⟨fails, -⟩ | ⟨_, pte', rw, -, hd, -, -, bit, abs⟩
    · cases fails.symm.trans works
    · have now := (state_of_update hd (congrArg Spaces.space abs)).1
      cases now.symm.trans mapped
      exact .inl (Option.some.inj bit).symm
  · exact (write grants).imp_right fun loose => ⟨loose, here⟩

theorem takes_openAccess (vs : List Nat) :
    Takes check (Clear lax e) (forAll (fun v => mem (.setAccess e v 1)) vs) fun ok m =>
      ok = true → Clear (fun q => lax q ∧ ¬ Visits vs q) e m := by
  induction vs generalizing lax with
  | nil =>
      refine .ret fun m h _ => h.mono fun q loose => ⟨loose, ?_⟩
      rintro ⟨v, mem, -⟩
      cases mem
  | cons v vs ih =>
      refine Ends.bind (takes_setAccess v) fun ok => ?_
      cases ok with
      | false => exact .ret fun m _ no => by cases no
      | true =>
          refine Ends.conseq ih (fun m h => h rfl) fun ok m h done => (h done).mono ?_
          rintro q ⟨⟨loose, ne⟩, others⟩
          refine ⟨loose, ?_⟩
          rintro ⟨w, mem, page⟩
          rcases List.mem_cons.mp mem with rfl | mem
          · exact ne page.symm
          · exact others ⟨w, mem, page⟩

theorem takes_loadUser (image : Image) :
    Takes check (Clear (fun _ => False) e) (lift (loadUser e image)) fun r m =>
      r.isSome = true → Clear (CodeOnly image) e m := by
  have stop : ∀ {P : Machine → Prop}, Takes check P (lift (pure none : Program (Option Placed)))
      fun r m => r.isSome = true → Clear (CodeOnly image) e m :=
    .ret fun m _ no => by cases no
  unfold loadUser
  dsimp only
  rw [lift_bind]
  refine Ends.bind (takes_mild (mild_grows (all_forAll fun _ _ =>
    grows_changeAvailability e _ _ _))) fun ok => ?_
  split
  swap
  · exact stop
  rw [lift_bind]
  refine Ends.bind (takes_mild (mild_grows (grows_loadSections e (grows_loadSection e image.file) _)))
    fun r => ?_
  cases r with
  | none => exact stop
  | some placed =>
  dsimp only
  rw [lift_bind]
  refine Ends.bind (takes_closeAccess _ _) fun ok => ?_
  split
  swap
  · exact stop
  rw [lift_bind]
  refine Ends.bind (takes_closeAccess _ _) fun ok => ?_
  split
  swap
  · exact stop
  rw [lift_bind, changeAccess, lift, hoist_forAll]
  simp only [hoist_perform]
  refine Ends.bind (takes_openAccess _) fun ok => ?_
  cases ok with
  | false => exact stop
  | true =>
  have code : ∀ m, (true = true → Clear (fun q => ((False ∨ Visits (pagesOf image.txt.start
      image.txt.len) q) ∨ Visits (pagesOf image.rodat.start image.rodat.len) q) ∧
        ¬ Visits (pagesOf image.dat.start image.dat.len) q) e m) → Clear (CodeOnly image) e m := by
    intro m h
    refine (h rfl).mono ?_
    rintro q ⟨code, noData⟩
    exact ⟨code.imp_left fun h => h.resolve_left id, noData⟩
  refine Ends.conseq (P := Clear (CodeOnly image) e) ?_ code fun _ _ h => h
  change Takes check _ (lift (mapAndClear e image.bssStart image.bssLen true >>= fun ok =>
    if ok = true then pure (some placed) else pure none)) _
  rw [lift_bind]
  refine Ends.bind (takes_mild (mild_grows (grows_mapAndClear e _ _ _))) fun ok => ?_
  split
  · exact .ret fun m h _ => h
  · exact stop

/-- What is known of the pages of a new image. -/
def Loosened (image : Image) (q : Nat) : Prop := image.guest = false ∧ CodeOnly image q

theorem takes_loadImage (image : Image) (args : List (List UInt8)) :
    Takes check (Clear (fun _ => False) e) (lift (loadImage e image args)) fun r m =>
      r.isSome = true → Clear (Loosened image) e m := by
  have stop : ∀ {P : Machine → Prop}, Takes check P (lift (pure none : Program (Option Placed)))
      fun r m => r.isSome = true → Clear (Loosened image) e m :=
    .ret fun m _ no => by cases no
  rw [loadImage, lift_bind]
  refine Ends.bind (takes_mild (mild_grows (grows_loadStack e _ _))) fun r => ?_
  cases r with
  | none => exact stop
  | some placed =>
  dsimp only
  rw [lift_bind]
  refine Ends.bind (Q := fun r m => r.isSome = true → Clear (Loosened image) e m) ?_ fun r => ?_
  · cases guest : image.guest with
    | true =>
        refine Ends.conseq (takes_mild (mild_grows (grows_loadSections e
          (fun s => grows_copySection e _ _ _) _))) (fun _ h => h) fun r m h _ => ?_
        exact h.mono fun _ no => no.elim
    | false =>
        refine Ends.conseq (takes_loadUser image) (fun _ h => h) fun r m h done => ?_
        exact (h done).mono fun q code => ⟨guest, code⟩
  · cases r with
    | none => exact stop
    | some placed' => exact .ret fun m h _ => h rfl

/-- The cache is clear after the call, or empty. -/
def Settled (m : Machine) : Prop := m.tlb = (fun _ => none) ∨ Clear (fun _ => False) m.cr3 m

theorem Clear.settled (h : Clear (fun _ => False) e m) : Settled m := .inr (h.cr3.symm ▸ h)

/-- A failed `exec` loads `%cr3` again. -/
theorem takes_restore (P : Machine → Prop) (e d : Nat) :
    Takes check P (do
      setPageDirectory e
      setCr3 e
      mem (.destructPageDir d)
      pure false) fun _ => Settled := by
  refine Ends.bind (Q := fun _ _ => True) (.perform fun _ _ _ _ => trivial) fun _ => ?_
  refine Ends.bind (Q := fun _ m => m.tlb = fun _ => none) (.perform fun _ _ _ _ => rfl) fun _ => ?_
  refine Ends.bind (Q := fun _ m => m.tlb = fun _ => none) (.perform fun _ h _ _ => h) fun _ => ?_
  exact .ret fun _ h => .inl h

theorem takes_loadExecutable {elf : Option Elf} (h : Clear (fun _ => False) e m)
    (wf : m.kernel.mem.vm.abs.Wf) (present : Present e m.kernel.mem)
    (covered : ∀ d guest placed, check (.mem (.newImage d guest placed)) →
      ∀ image, elf = some image → ∀ q, ¬ Loosened image.toImage q)
    (name : List UInt8) (args : List (List UInt8)) :
    Takes check (· = m) (loadExecutable elf name args) fun _ => Settled := by
  cases elf with
  | none => exact .ret fun s here => here ▸ h.settled
  | some elf =>
  refine Ends.bind (takes_constructPageDir h wf present) fun d => ?_
  cases d with
  | none => exact .ret fun s h => h.1.settled
  | some d =>
  refine Ends.each fun s here => ?_
  have ne := here.2 d rfl
  refine Ends.conseq (P := Clear (fun _ => False) e) ?_ (fun _ same => same ▸ here.1) fun _ _ h => h
  refine Ends.bind (takes_mild (mild_grows (grows_mallocs d _))) fun ok => ?_
  split
  swap
  · exact Ends.bind (takes_mild (all_perform ne)) fun _ => .ret fun _ h => h.settled
  refine Ends.bind (Q := fun m₀ s => m₀.cr3 = e ∧ Clear (fun _ => False) e s)
    (.perform fun s h _ _ => ⟨h.cr3, h⟩) fun m₀ => ?_
  refine Ends.each fun s here => ?_
  rw [here.1]
  refine Ends.conseq (P := Clear (fun _ => False) e) ?_ (fun _ same => same ▸ here.2) fun _ _ h => h
  refine Ends.bind (takes_mild (all_perform fun _ => ⟨rfl, fun _ => .inl rfl⟩)) fun _ => ?_
  refine Ends.bind (Q := fun _ => Clear (fun _ => False) d)
    (.perform fun s h _ _ => Clear.of_empty (m := s.setCr3 d) h.orderly rfl) fun _ => ?_
  refine Ends.bind (takes_loadImage elf.toImage args) fun r => ?_
  cases r with
  | none => exact takes_restore _ e d
  | some placed =>
  refine Ends.conseq (P := Clear (Loosened elf.toImage) d) ?_ (fun _ h => h rfl) fun _ _ h => h
  refine Ends.bind (takes_mild (all_perform fun _ => ⟨rfl, fun _ => .inl rfl⟩)) fun _ => ?_
  refine Ends.bind (Q := fun _ => Clear (fun _ => False) d) (.perform fun s h ok _ => ?_) fun _ => ?_
  · have after := h.exec (a := .mem (.newImage d elf.guest placed)) trivial
    exact after.mono fun q loose => covered _ _ _ ok elf rfl q loose
  · exact Ends.bind (takes_mild (all_perform ne.symm)) fun _ => .ret fun _ h => h.settled

theorem takes_exec {elf : Option Elf} (h : Clear (fun _ => False) e m)
    (wf : m.kernel.mem.vm.abs.Wf) (present : Present e m.kernel.mem)
    (covered : ∀ d guest placed, check (.mem (.newImage d guest placed)) →
      ∀ image, elf = some image → ∀ q, ¬ Loosened image.toImage q)
    (name : List UInt8) (args : List (List UInt8)) :
    Takes check (· = m) (exec elf name args) fun _ => Settled := by
  refine Ends.bind (Q := fun _ s => s = m) (.perform fun s here _ _ => here) fun count => ?_
  split
  · exact takes_loadExecutable h wf present covered name args
  · exact .ret fun s here => here ▸ h.settled

end

/-! ### Runs -/

/-- Every page that `exec` makes read-only holds data as well, and is made writable again. -/
def CodeHoldsData (image : Image) : Prop :=
  ∀ v ∈ pagesOf image.txt.start image.txt.len ++ pagesOf image.rodat.start image.rodat.len,
    Touches image.dat (pageOf v)

instance (sec : Section) (q : Nat) : Decidable (Touches sec q) := by
  unfold Touches Visits
  infer_instance

instance (image : Image) : Decidable (CodeHoldsData image) := by
  unfold CodeHoldsData
  infer_instance

/-- What a call may do: `new_pages` gives no page back, and `exec` starts no program with
a page of code that holds no data, unless it is a guest. -/
def Call.spares : Call → KAct → Prop
  | .newPages .., a => ¬ Unmaps a
  | .exec (some elf) .., .mem (.newImage ..) => elf.guest = true ∨ CodeHoldsData elf.toImage
  | _, _ => True

instance (call : Call) (a : KAct) : Decidable (call.spares a) := by
  unfold Call.spares
  split <;> infer_instance

/-- Every action of the call, if its thread is alive, is one that it may do. -/
def Spares (physFrames : Nat) (m : Machine) (i : Nat × Call) : Prop :=
  Kernel.alive i.1 m.kernel = true →
    (i.2.prog physFrames).Meets Machine.exec Machine.live (fun a _ => i.2.spares a) (m.switchTo i.1)

instance (physFrames : Nat) (m : Machine) (i : Nat × Call) : Decidable (Spares physFrames m i) := by
  unfold Spares
  infer_instance

/-- The machine between two calls, with nothing stale in the cache. -/
structure Machine.Clean (m : Machine) : Prop where
  good : m.Good
  orderly : m.kernel.mem.vm.Orderly
  clear : m.live = true → Clear (fun _ => False) m.cr3 m

section
variable {physFrames : Nat} {m : Machine} {p : Nat} {pr : Proc}

theorem not_loosened {image : Image} (covered : image.guest = true ∨ CodeHoldsData image) (q : Nat) :
    ¬ Loosened image q := by
  rintro ⟨user, code, noData⟩
  rcases covered with guest | all
  · cases guest.symm.trans user
  · rcases code with ⟨v, mem, rfl⟩ | ⟨v, mem, rfl⟩
    · exact noData (all v (List.mem_append_left _ mem))
    · exact noData (all v (List.mem_append_right _ mem))

/-- `switch_context` loads `%cr3`, unless the thread runs already. -/
theorem Machine.Clean.switchTo (clean : m.Clean) {t : Nat} (alive : Kernel.alive t m.kernel = true) :
    Clear (fun _ => False) (m.switchTo t).cr3 (m.switchTo t) := by
  obtain ⟨p, pr, turn, running⟩ := clean.good.turn alive
  have thread := turn.thread
  have proc := turn.proc
  rw [running, switchTo_kernel] at thread
  rw [switchTo_kernel] at proc
  unfold Machine.switchTo
  split
  · rename_i here
    refine clean.clear ?_
    rw [Machine.live, here, alive]
  · rw [Kernel.proc, thread, Option.bind_some, proc]
    exact .of_empty clean.orderly rfl

/-- A call that does what it may. -/
theorem Turn.takes_call (turn : Turn m p pr) (h : Clear (fun _ => False) m.cr3 m) (call : Call) :
    Takes call.spares (· = m) (call.prog physFrames) fun _ => Settled := by
  have always : ∀ {prog : KProgram Unit}, Takes call.spares (Clear (fun _ => False) m.cr3) prog
      (fun _ => Clear (fun _ => False) m.cr3) →
      Takes call.spares (· = m) prog fun _ => Settled := fun takes =>
    takes.conseq (fun _ here => here ▸ h) fun _ _ h => h.settled
  cases call with
  | load v => exact always (takes_load v)
  | store v b => exact always (takes_store v b)
  | pageFault present write v => exact always (takes_pageFault present write v)
  | newPages base len =>
      exact always (Ends.bind (takes_newPages (fun _ keeps => keeps) _ len physFrames)
        fun _ => .ret fun _ h => h)
  | removePages base =>
      refine Ends.bind (Q := fun _ => Settled) ?_ fun _ => .ret fun _ h => h
      rintro _ rfl - _ -
      exact .inr (turn.clear_removePages h _)
  | fork =>
      refine Ends.bind (Q := fun _ => Settled) ?_ fun _ => .ret fun _ h => h
      exact (takes_fork h turn.wf turn.present).conseq (fun _ h => h) fun _ _ h => h.settled
  | exec elf name args =>
      refine Ends.bind (Q := fun _ => Settled) ?_ fun _ => .ret fun _ h => h
      refine takes_exec h turn.wf turn.present (fun d guest placed ok image eq q => ?_) name args
      subst eq
      exact not_loosened ok q

theorem clean_step (clean : m.Clean) (i : Nat × Call) (spares : Spares physFrames m i) :
    (step physFrames m i).Clean := by
  cases alive : Kernel.alive i.1 m.kernel with
  | false =>
      rw [step, alive, if_neg (by decide)]
      exact clean
  | true =>
      obtain ⟨p, pr, turn, running⟩ := clean.good.turn alive
      have clear := clean.switchTo alive
      have good : (step physFrames m i).Good := good_step clean.good i
      rw [step, if_pos alive] at good ⊢
      have orderly : ((m.switchTo i.1).eval (i.2.prog physFrames)).1.kernel.mem.vm.Orderly :=
        eval_keeps (P := fun m : Machine => m.kernel.mem.vm.Orderly)
          (fun a _ h => orderly_machine h a) _ clear.orderly
      refine ⟨good, orderly, fun live => ?_⟩
      have settled : Settled ((m.switchTo i.1).eval (i.2.prog physFrames)).1 := by
        rcases ran : (m.switchTo i.1).eval (i.2.prog physFrames) with ⟨m', _ | x⟩
        · rw [ran] at live
          cases (eval_ended ran).symm.trans live
        · have settled := turn.takes_call clear i.2 _ rfl (spares alive) x (congrArg Prod.snd ran)
          rw [Machine.eval] at ran
          rwa [ran] at settled
      rcases settled with empty | clear
      · exact .of_empty orderly empty
      · exact clear

theorem boot_clean (fits : physFrames ≤ virtualAddrEnd / pageSize) {oracle : Nat → Bool}
    {phys : Nat → UInt8} {ctl : Ctl} (started : boot physFrames oracle phys ctl = some m) :
    m.Clean := by
  obtain ⟨booted, -, -, tlb, -⟩ := boot_spec started
  have orderly := (boot_vm fits booted).1
  exact ⟨boot_good fits started, orderly, fun _ => .of_empty orderly tlb⟩

end

end OsKernel.Syscall
