/-
The cache of translations.

`NoStale` says that every entry of a user page names the frame that the directory in
`%cr3` maps there, and grants nothing that the directory forbids. `Clear` is its form on
page states, with pages that may have lost their write access since (`lax`). An action
keeps it that takes no page and no access away from the directory in `%cr3`
(`Clear.exec`), and so does a program of such actions (`Clear.eval`).
-/

import OsKernel.Loader.Access
import OsKernel.Syscall.Runs

namespace OsKernel.Syscall

open OsKernel.Vm OsKernel.Memory Prog Sys
open OsKernel.Loader (orderly_machine)

/-! ### Entries and page tables -/

/-- No entry of a user page names another frame than the directory in `%cr3`, or grants an
access that the directory forbids. -/
def NoStale (m : Machine) : Prop :=
  ∀ q x, UserPage q → m.tlb q = some x → ∃ y, m.walk q = some y ∧ x.frame = y.frame ∧
    ∀ write, x.grants write = true → y.grants write = true

/-- Directory `e` is in `%cr3`, and every entry of a user page stands for a page that it maps
to this frame; it may grant a store only if the page may be written, or is one of `lax`. -/
structure Clear (lax : Nat → Prop) (e : Nat) (m : Machine) : Prop where
  cr3 : m.cr3 = e
  orderly : m.kernel.mem.vm.Orderly
  entries : ∀ q x, UserPage q → m.tlb q = some x → ∃ pte,
    m.kernel.mem.state e q = some (.mapped pte) ∧ x.frame = pte.pageAddr * pageSize ∧
      (x.write = true → pte.rw = .readWrite ∨ lax q)

/-- The entry of a user page in some state. -/
def entryOf : PageState → Option Entry
  | .unmapped _ => none
  | .mapped pte => some ⟨pte.pageAddr * pageSize, true, pte.rw = .readWrite⟩

section
variable {lax lax' : Nat → Prop} {e d t : Nat} {m m' : Machine} {mem mem' : Mem}

/-- What the processor finds for a user page is its state. -/
theorem walk_state (orderly : mem.vm.Orderly) {q : Nat} (user : UserPage q) :
    (mem.vm.dirs d).bind (Syscall.walk · q) = (mem.state d q).bind entryOf := by
  cases dir : mem.vm.dirs d with
  | none => simp [Mem.state, VmState.abs, dir]
  | some pd =>
      have tables := (orderly d pd dir).tables (q / pteCount)
      have high : kernelPageTableCount ≤ q / pteCount := by
        have := user.1
        simp only [kernelPageCount, kernelPageTableCount, userPageStart, userMemStart, pteCount,
          pageSize] at *
        omega
      simp only [Mem.state, VmState.abs, dir, Option.map_some, Option.bind_some, Syscall.walk,
        stateOf]
      cases here : pd (q / pteCount) with
      | absent avail => rfl
      | present rw us g pt =>
          obtain ⟨rfl, rfl, entries⟩ := tables rw us g pt high here
          dsimp only
          cases present : (pt (q % pteCount)).p with
          | true =>
              have us := entries (q % pteCount) present
              simp [Pte.state, entryOf, present, us]
          | false => simp [Pte.state, entryOf, present]

/-- An empty cache. -/
theorem Clear.of_empty (orderly : m.kernel.mem.vm.Orderly) (empty : m.tlb = fun _ => none) :
    Clear lax m.cr3 m :=
  ⟨rfl, orderly, fun q x _ cached => by simp [empty] at cached⟩

theorem Clear.mono (h : Clear lax e m) (more : ∀ q, lax q → lax' q) : Clear lax' e m := by
  refine ⟨h.cr3, h.orderly, fun q x user cached => ?_⟩
  obtain ⟨pte, mapped, frame, write⟩ := h.entries q x user cached
  exact ⟨pte, mapped, frame, fun grants => (write grants).imp_right (more q)⟩

/-- Where no page is lax, nothing is stale. -/
theorem Clear.noStale (h : Clear (fun _ => False) e m) : NoStale m := by
  intro q x user cached
  obtain ⟨pte, mapped, frame, write⟩ := h.entries q x user cached
  have walk := walk_state (d := e) h.orderly user
  rw [mapped, ← h.cr3] at walk
  refine ⟨_, walk, frame, fun w grants => ?_⟩
  cases w with
  | false => rfl
  | true => simpa [Entry.grants] using write grants

/-! ### What an action takes away -/

/-- A page that a directory maps stays on its frame, and may be written as before unless it
is one of `lax`. -/
def Holds (lax : Nat → Prop) (e : Nat) (mem mem' : Mem) : Prop :=
  ∀ q pte, mem.state e q = some (.mapped pte) → ∃ pte', mem'.state e q = some (.mapped pte') ∧
    pte'.pageAddr = pte.pageAddr ∧ (pte.rw = .readWrite → pte'.rw = .readWrite ∨ lax q)

theorem Holds.of_state (same : ∀ q pte, mem.state e q = some (.mapped pte) →
    mem'.state e q = some (.mapped pte)) : Holds lax e mem mem' :=
  fun q pte mapped => ⟨pte, same q pte mapped, rfl, .inl⟩

theorem Holds.of_space (same : mem'.vm.abs.space e = mem.vm.abs.space e) :
    Holds lax e mem mem' :=
  .of_state fun q pte mapped => by rwa [Mem.state, same]

theorem Holds.of_dirs (same : mem'.vm.dirs e = mem.vm.dirs e) : Holds lax e mem mem' :=
  .of_space (by simp only [VmState.abs, same])

theorem Holds.of_abs {vm : VmState} (abs : vm.abs = mem.vm.abs) : Holds lax e mem (mem.withVm vm) :=
  .of_space (congrArg (fun s : Spaces => s.space e) abs)

/-- A page has changed that was not mapped. -/
theorem Holds.of_unmapped {vm : VmState} {space : Nat → PageState} {page : Nat} {state : PageState}
    {avail : Availability} (hd : mem.vm.abs.space d = some space)
    (old : space page = .unmapped avail)
    (abs : vm.abs.space =
      Function.update mem.vm.abs.space d (some (Function.update space page state))) :
    Holds lax e mem (mem.withVm vm) := by
  by_cases here : e = d
  · subst here
    refine .of_state fun q pte mapped => ?_
    rw [(state_of_update hd abs).2 q ?_, mapped]
    rintro rfl
    rw [state_of_space hd, old] at mapped
    cases mapped
  · refine .of_space ?_
    change vm.abs.space e = _
    rw [abs, Function.update_of_ne here]

/-- `set_access` of a page that may lose its write access, or is given it. -/
theorem holds_setAccess (mem : Mem) {v n : Nat} (lost : n = 1 ∨ lax (pageOf v)) :
    Holds lax e mem (mem.withVm (setAccess mem.vm e v n).2) := by
  rcases setAccess_spec mem.vm e v n with ⟨-, abs⟩ | ⟨space, pte, rw, -, hd, -, old, bit, abs⟩
  · exact .of_abs abs
  · have after := state_of_update hd (congrArg Spaces.space abs)
    intro q pte' mapped
    by_cases here : q = pageOf v
    · subst here
      rw [state_of_space hd, old] at mapped
      cases mapped
      refine ⟨_, after.1, rfl, fun _ => lost.imp_left ?_⟩
      rintro rfl
      exact (Option.some.inj bit).symm
    · exact ⟨pte', (after.2 q here).trans mapped, rfl, .inl⟩

/-- The actions that take no page away from directory `e`, and write access only from pages
of `lax`. -/
def Gentle (lax : Nat → Prop) (e : Nat) : Act → Prop
  | .constructPageDir => False
  | .unmapFrame d .. | .destructPageDir d => d ≠ e
  | .setAccess d v n => d = e → n = 1 ∨ lax (pageOf v)
  | .copyPage d _ _ => d = e
  | _ => True

theorem holds_exec {a : Act} (gentle : Gentle lax e a) (s : Kernel) :
    Holds lax e s.mem (Kernel.exec t a s).1.mem := by
  have same : ∀ {mem : Mem}, mem.vm = s.mem.vm → Holds lax e s.mem mem := fun vm =>
    .of_dirs (by rw [vm])
  cases a with
  | malloc size =>
      simp only [Kernel.exec]
      split
      · exact same rfl
      · exact .of_dirs rfl
  | constructPageDir => exact gentle.elim
  | destructPageDir d =>
      refine .of_dirs ?_
      change (destructPageDir s.mem.vm d).dirs e = _
      rw [destructPageDir_dirs, Function.update_of_ne (Ne.symm gentle)]
  | mapNewFrame d v =>
      rcases mapNewFrame_spec s.mem.vm d v with ⟨-, abs⟩ | ⟨_, _, _, _, -, hd, -, old, -, abs⟩
      · exact .of_abs abs
      · exact .of_unmapped hd old (congrArg Spaces.space abs)
  | mapZeroFrame d v =>
      rcases mapZeroFrame_spec s.mem.vm d v with ⟨-, abs⟩ | ⟨_, _, -, hd, -, old, abs⟩
      · exact .of_abs abs
      · exact .of_unmapped hd old (congrArg Spaces.space abs)
  | unmapFrame d v released =>
      rw [(exec_unmapFrame t s d v released).2.1]
      exact .of_dirs (unmapFrame_dirs _ v (Ne.symm gentle))
  | setAccess d v n =>
      by_cases here : d = e
      · subst here
        exact holds_setAccess s.mem (gentle rfl)
      · exact .of_dirs (setAccess_dirs _ v n (Ne.symm here))
  | setAvailability d v n =>
      rw [(exec_setAvailability t s d v n).2.1]
      rcases setAvailability_spec s.mem.vm d v n with ⟨-, abs⟩ | ⟨_, _, _, -, hd, -, old, -, abs⟩
      · exact .of_abs abs
      · exact .of_unmapped hd old (congrArg Spaces.space abs)
  | load v => exact same (access_vm t v 0 s).1
  | store v b => exact same (access_vm t v b s).2
  | clearPage d v => exact same (Pointer.clearPage_vm _ _ _)
  | copyPage src dst v =>
      refine same ?_
      simp only [Kernel.exec, Mem.copyPage]
      split <;> rfl
  | place d v b => exact same (kstore_vm s d _ b)
  | copyOut d v b =>
      refine same ?_
      have vm := kstore_vm s d (v % virtualAddrEnd) b
      simp only [Kernel.exec]
      split
      · rename_i eq _
        rw [eq] at vm
        exact vm
      · exact vm
  | setAllocations | newProcess | newThread | newImage | vanish | detach =>
      refine same ?_
      simp only [Kernel.exec]
      repeat' split
      all_goals rfl
  | current | threadAliveCount | checkUserPage | getAccess | getAvailability | killSiblings =>
      exact same rfl

/-! ### What an action does to the cache -/

/-- An entry is as it was, or gone, or what the processor finds now. -/
def Fetched (m m' : Machine) : Prop :=
  m'.cr3 = m.cr3 ∧ ∀ q, m'.tlb q = m.tlb q ∨ m'.tlb q = none ∨ m'.tlb q = m'.walk q

theorem fetched_touch (cr3 : m'.cr3 = m.cr3) (tlb : m'.tlb = m.tlb) (v : Nat) (completed : Bool) :
    Fetched m (m'.touch v completed) := by
  refine ⟨cr3, fun q => ?_⟩
  by_cases here : q = pageOf v
  · subst here
    cases completed with
    | true => exact .inr (.inr (Function.update_self ..))
    | false => exact .inr (.inl (Function.update_self ..))
  · exact .inl ((Function.update_of_ne here ..).trans (congrFun tlb q))

/-- The cache after the copy of a page is empty, or as it was. -/
theorem copyPage_cache (m : Machine) (child v : Nat) :
    (m.copyPage m.cr3 child v).kernel.mem.vm = m.kernel.mem.vm ∧
      (m.copyPage m.cr3 child v).cr3 = m.cr3 ∧
        ∀ q, (m.copyPage m.cr3 child v).tlb q = m.tlb q ∨ (m.copyPage m.cr3 child v).tlb q = none := by
  unfold Machine.copyPage
  split
  · exact ⟨rfl, rfl, fun q => .inl rfl⟩
  · refine ⟨?_, rfl, fun q => .inr rfl⟩
    dsimp only
    split <;> rfl

theorem fetched_exec {a : Act} (gentle : Gentle lax m.cr3 a) :
    Fetched m (Machine.exec (.mem a) m).1 := by
  cases a with
  | clearPage | place | copyOut | load | store => exact fetched_touch rfl rfl _ _
  | copyPage d child v =>
      obtain rfl : d = m.cr3 := gentle
      obtain ⟨-, cr3, entries⟩ := copyPage_cache m child v
      exact ⟨cr3, fun q => (entries q).imp_right .inl⟩
  | _ => exact ⟨rfl, fun q => .inl rfl⟩

theorem holds_machine {a : Act} (gentle : Gentle lax m.cr3 a) :
    Holds lax m.cr3 m.kernel.mem (Machine.exec (.mem a) m).1.kernel.mem := by
  cases a with
  | clearPage d v => exact holds_exec (t := m.running) (a := .clearPage m.cr3 v) trivial m.kernel
  | place d v b => exact holds_exec (t := m.running) (a := .place m.cr3 v b) trivial m.kernel
  | copyOut d v b => exact holds_exec (t := m.running) (a := .copyOut m.cr3 v b) trivial m.kernel
  | copyPage d child v =>
      obtain rfl : d = m.cr3 := gentle
      exact .of_dirs (congrArg (VmState.dirs · m.cr3) (copyPage_cache m child v).1)
  | _ => exact holds_exec (t := m.running) gentle m.kernel

/-- What keeps the pages of the directory keeps the cache clear. -/
theorem Clear.step (h : Clear lax e m) (orderly : m'.kernel.mem.vm.Orderly)
    (fetched : Fetched m m') (holds : Holds lax e m.kernel.mem m'.kernel.mem) : Clear lax e m' := by
  have cr3 := fetched.1.trans h.cr3
  refine ⟨cr3, orderly, fun q x user cached => ?_⟩
  rcases fetched.2 q with same | none | now
  · rw [same] at cached
    obtain ⟨pte, mapped, frame, write⟩ := h.entries q x user cached
    obtain ⟨pte', mapped', addr, keeps⟩ := holds q pte mapped
    refine ⟨pte', mapped', by rw [frame, addr], fun grants => ?_⟩
    rcases write grants with rw | lost
    · exact keeps rw
    · exact .inr lost
  · rw [none] at cached
    cases cached
  · rw [now, Machine.walk, walk_state orderly user, cr3] at cached
    obtain ⟨state, here, entry⟩ := Option.bind_eq_some_iff.mp cached
    cases state with
    | unmapped avail => cases entry
    | mapped pte =>
        cases entry
        exact ⟨pte, here, rfl, fun grants => .inl (of_decide_eq_true grants)⟩

/-- The actions of a call while directory `e` is in `%cr3`. -/
def Mild (lax : Nat → Prop) (e : Nat) : KAct → Prop
  | .mem a => Gentle lax e a
  | .ctl f => ∀ c, (f c).cr3 = c.cr3 ∧ ∀ q, (f c).tlb q = c.tlb q ∨ (f c).tlb q = none
  | .look => True

theorem Clear.exec {a : KAct} (mild : Mild lax e a) (h : Clear lax e m) :
    Clear lax e (Machine.exec a m).1 := by
  cases a with
  | mem a =>
      obtain rfl := h.cr3
      exact h.step (orderly_machine h.orderly _) (fetched_exec mild) (holds_machine mild)
  | ctl f =>
      obtain ⟨cr3, entries⟩ := mild m.toCtl
      exact h.step h.orderly ⟨cr3, fun q => (entries q).imp_right .inl⟩ (.of_dirs rfl)
  | look => exact h

/-! ### Programs -/

/-- A program whose actions meet a check takes the machine from `P` to `Q`, if it ends. -/
abbrev Takes {α : Type} (check : KAct → Prop) (P : Machine → Prop) (p : KProgram α)
    (Q : α → Machine → Prop) : Prop :=
  Ends Machine.exec Machine.live (fun a _ => check a) P p Q

theorem takes_checked {α : Type} {check : KAct → Prop} {p : KProgram α}
    (mild : p.All fun a => check a → Mild lax e a) :
    Takes check (Clear lax e) p fun _ => Clear lax e := by
  intro m h meets _ _
  exact Meets.keeps (fun a _ gentle h => Clear.exec (a := a) gentle h)
    ((mild.meets meets).mono fun _ _ both => both.1 both.2) h

theorem takes_mild {α : Type} {check : KAct → Prop} {p : KProgram α} (mild : p.All (Mild lax e)) :
    Takes check (Clear lax e) p fun _ => Clear lax e :=
  takes_checked (mild.mono fun _ mild _ => mild)

theorem lift_bind {α β : Type} (p : Program α) (f : α → Program β) :
    lift (p >>= f) = lift p >>= fun x => lift (f x) := hoist_bind p f

theorem mild_lift {α : Type} {p : Program α} (gentle : p.All (Gentle lax e)) :
    (lift p).All (Mild lax e) :=
  all_hoist (gentle.mono fun _ gentle => all_perform gentle)

theorem Grows.gentle {a : Act} (grows : Grows d a) : Gentle lax e a := by
  cases a with
  | constructPageDir | destructPageDir | unmapFrame | setAccess | copyPage => exact grows.elim
  | _ => trivial

theorem mild_grows {α : Type} {p : Program α} (grows : p.All (Grows d)) :
    (lift p).All (Mild lax e) :=
  mild_lift (grows.mono fun _ => Grows.gentle)

theorem Copies.gentle {child : Nat} {a : Act} (copies : Copies e child a) (ne : child ≠ e) :
    Gentle lax e a := by
  cases a with
  | constructPageDir | destructPageDir | unmapFrame => exact copies.elim
  | setAccess d v n => exact fun here => absurd (copies.symm.trans here) ne
  | copyPage d child v => exact copies.1
  | _ => trivial

theorem Tidy.mild {a : KAct} (tidy : Tidy a) : Mild lax e a := by
  cases a with
  | mem a => exact tidy.elim
  | ctl f => exact fun c => ⟨(tidy c).2.1, fun q => .inl (congrFun (tidy c).2.2.2 q)⟩
  | look => trivial

theorem mild_tidy {α : Type} {p : KProgram α} (tidy : p.All Tidy) : p.All (Mild lax e) :=
  tidy.mono fun _ => Tidy.mild

end

end OsKernel.Syscall
