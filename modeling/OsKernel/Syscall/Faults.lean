/-
What a page fault leaves alone.

`handle_page_fault` gives a page a frame, or takes it from the zero frame to one of its
own, or kills the thread. A page that has a private frame it never touches (`KeepsOwn`),
so the records of the process hold after the fault as before (`triple_pageFault`,
`triple_load`, `triple_store`).
-/

import OsKernel.Syscall.Exec

namespace OsKernel.Syscall

open OsKernel.Vm OsKernel.Memory Prog Sys

/-! ### Pages of the directory -/

/-- The directory is there. -/
def Present (d : Nat) (m : Mem) : Prop := (m.vm.dirs d).isSome = true

section
variable {exact last : Prop} {m m' : Mem} {d t : Nat} {s₀ : Kernel}

theorem present_iff (q : Nat) : Present d m ↔ (m.state d q).isSome = true := by
  simp [Present, Mem.state, VmState.abs]

theorem Present.congr {q : Nat} (h : Present d m) (same : m'.state d q = m.state d q) :
    Present d m' := by
  rw [present_iff q] at *
  rwa [same]

theorem Same.present (same : Same d m m') (h : Present d m) : Present d m' :=
  h.congr (same.state 0)

theorem Put.present {exact : Prop} {page : Nat} {state : PageState}
    (put : Put exact d page state m m') : Present d m' := by
  rw [present_iff page, put.now]
  rfl

theorem Private.congr {q : Nat} (same : m'.state d q = m.state d q) (h : Private m d q) :
    Private m' d q := by
  obtain ⟨pte, state, rest⟩ := h
  exact ⟨pte, same.trans state, rest⟩

/-- The pages of a directory that have a private frame are as they were, and all other
directories. -/
structure KeepsOwn (d : Nat) (m m' : Mem) : Prop where
  apart : Apart d m.vm m'.vm
  present : Present d m → Present d m'
  own : ∀ q, Private m d q → m'.state d q = m.state d q

theorem Same.keepsOwn (h : Same d m m') : KeepsOwn d m m' :=
  ⟨h.within.toApart, h.present, fun q _ => h.state q⟩

theorem KeepsOwn.refl (wf : m.vm.abs.Wf) : KeepsOwn d m m := ⟨.refl wf d, id, fun _ _ => rfl⟩

/-- A page that had no private frame was given another state. -/
theorem KeepsOwn.of_rest {page : Nat} {state : PageState} (apart : Apart d m.vm m'.vm)
    (old : m.state d page = some state)
    (foreign : ∀ pte, state = .mapped pte → pte.pageAddr * pageSize = zeroFrame)
    (rest : ∀ q, q ≠ page → m'.state d q = m.state d q) : KeepsOwn d m m' := by
  refine ⟨apart, fun h => h.congr (rest (page + 1) (by omega)), fun q own => rest q ?_⟩
  rintro rfl
  obtain ⟨pte, mapped, -, -, nz⟩ := own
  rw [old, Option.some.injEq] at mapped
  exact nz (foreign pte mapped)

/-- What `check_user_page` says of a page on the zero frame. -/
theorem checkUserPage_zero {v : Nat} (seen : checkUserPage m.vm d v = some .zeroFrameMapped) :
    ∃ pte, m.state d (pageOf v) = some (.mapped pte) ∧ pte.pageAddr * pageSize = zeroFrame := by
  have user := checkUserPage_user seen
  cases dir : m.vm.dirs d with
  | none =>
      rw [checkUserPage, dir] at seen
      cases seen
  | some pd =>
      have hd := abs_space_some dir
      rcases checkUserPage_cases hd user with ⟨_, found, -⟩ | ⟨_, found, -⟩ | ⟨pte, -, state, zero⟩ |
        ⟨_, found, -⟩
      · rw [found] at seen
        cases seen
      · rw [found] at seen
        cases seen
      · exact ⟨pte, by rw [state_of_space hd, state], zero⟩
      · rw [found] at seen
        cases seen

/-- `map_new_frame` and `memset` of a page that had no private frame. -/
theorem triple_mapAndClearNew_keeps {m₀ : Mem} {v : Nat} {state : PageState}
    (apart : Apart d m₀.vm m.vm) (old : m₀.state d (pageOf v) = some state)
    (foreign : ∀ pte, state = .mapped pte → pte.pageAddr * pageSize = zeroFrame)
    (rest : ∀ q, q ≠ pageOf v → m.state d q = m₀.state d q) :
    (free₀ last exact t).Triple () (OnMem s₀ (Eq m)) (mapAndClearNew d v) fun _ =>
      OnMem s₀ (KeepsOwn d m₀) := by
  refine Triple.conseq (triple_mapAndClearNew apart.wf v) (fun _ _ h => h) ?_
  rintro ok s ⟨same, after⟩
  refine ⟨same, ?_⟩
  cases ok with
  | true =>
      exact .of_rest (apart.trans after.apart.toApart) old foreign fun q ne =>
        (after.rest ne).trans (rest q ne)
  | false =>
      exact .of_rest (apart.trans after.1.within.toApart) old foreign fun q ne =>
        (after.1.state q).trans (rest q ne)

/-- A page fault leaves private frames alone, whether it is repaired or not. -/
theorem triple_repairPage_keeps (wf : m.vm.abs.Wf) (present write : Bool) (v : Nat) :
    (free₀ last exact t).Triple () (OnMem s₀ (Eq m)) (repairPage d present write v) fun _ =>
      OnMem s₀ (KeepsOwn d m) := by
  have idle : (free₀ last exact t).Triple () (OnMem s₀ (Eq m)) (pure false : Program Bool) fun _ =>
      OnMem s₀ (KeepsOwn d m) := Triple.ret fun _ _ h => ⟨h.1, h.2 ▸ .refl wf⟩
  unfold repairPage
  split
  · refine Triple.bind (triple_askAvailability m d v) fun r => triple_at fun _ ⟨answer, eq⟩ => ?_
    subst eq
    rcases r with - | - | -
    · exact idle
    · exact idle
    have old := getAvailability_state answer.symm
    have foreign : ∀ pte, PageState.unmapped .available = .mapped pte →
        pte.pageAddr * pageSize = zeroFrame := fun _ no => by cases no
    dsimp only
    split
    · exact triple_mapAndClearNew_keeps (.refl wf d) old foreign fun _ _ => rfl
    · refine Triple.conseq (triple_mapZeroFrame m d v) (fun _ _ h => h) ?_
      rintro ok s ⟨same, -, mem⟩
      rw [OnMem, mem]
      refine ⟨same, ?_⟩
      rcases mapZeroFrame_put wf v with ⟨-, same⟩ | ⟨_, -, -, -, put⟩
      · exact same.keepsOwn
      · exact .of_rest put.apart old foreign put.rest
  · refine Triple.bind (triple_askPage m d v) fun r => triple_at fun _ ⟨answer, eq⟩ => ?_
    subst eq
    rcases r with - | - | - | - | -
    · exact idle
    · exact idle
    · exact idle
    swap
    · exact idle
    -- a page mapped to the zero frame
    have user := checkUserPage_user answer.symm
    obtain ⟨pte, old, zero⟩ := checkUserPage_zero answer.symm
    have foreign : ∀ pte', PageState.mapped pte = .mapped pte' →
        pte'.pageAddr * pageSize = zeroFrame := by
      rintro _ ⟨⟩
      exact zero
    refine Triple.bind (triple_unmapFrame m d v false) fun r => triple_at fun m₁ ⟨_, result, mem⟩ => ?_
    obtain ⟨works, -, put⟩ := unmapFrame_put wf v user old False.elim
    rw [works] at result
    subst result
    rw [← mem] at put
    exact triple_mapAndClearNew_keeps put.apart old foreign put.rest

theorem triple_handlePageFault_keeps (wf : m.vm.abs.Wf) (present write : Bool) (v : Nat) :
    (loader exact t).Triple () (OnMem s₀ (Eq m)) (handlePageFault d present write v) fun _ =>
      OnMem s₀ (KeepsOwn d m) := by
  refine Triple.bind (triple_repairPage_keeps wf present write v) fun ok => ?_
  cases ok with
  | true => exact Triple.ret fun _ _ h => h
  | false => exact triple_vanished d

end

/-! ### Faults and accesses -/

section
variable {m m' : Machine}

/-- What holds of a thread that a fault has killed. -/
abbrev slain (t d : Nat) (s₀ s : Kernel) : Prop :=
  Kernel.alive t s = false → Aside False t d s₀ s

/-- Nothing but bytes has changed, and the cache. -/
structure Looked (m m' : Machine) : Prop where
  ctl : SameCtl m m'
  procs : SameProcs m.kernel m'.kernel
  vm : m'.kernel.mem.vm = m.kernel.mem.vm

/-- A fault is over, and the thread still alive. -/
structure Survived (m m' : Machine) : Prop where
  ctl : SameCtl m m'
  procs : SameProcs m.kernel m'.kernel
  keeps : KeepsOwn m.cr3 m.kernel.mem m'.kernel.mem

theorem Looked.survived (wf : m.kernel.mem.vm.abs.Wf) (h : Looked m m') : Survived m m' := by
  refine ⟨h.ctl, h.procs, ?_, fun there => ?_, fun q _ => ?_⟩
  · rw [h.vm]
    exact .refl wf _
  · rwa [Present, h.vm]
  · simp only [Mem.state, h.vm]

theorem Looked.aside (wf : m.kernel.mem.vm.abs.Wf) (h : Looked m m') (t d : Nat) :
    Aside False t d m.kernel m'.kernel := by
  refine ⟨?_, fun no => no.elim, fun no => no.elim, .inl h.procs⟩
  rw [h.vm]
  exact .refl wf _

theorem triple_pageFault (wf : m.kernel.mem.vm.abs.Wf) (present write : Bool) (v : Nat) :
    (call m.running (slain m.running m.cr3 m.kernel) False).Triple () (Looked m)
      (pageFault present write v) fun _ => Survived m := by
  refine Triple.bind (Q := fun _ => Looked m) (triple_ctl ?_ ?_) fun _ => ?_
  · exact fun _ => rfl
  · rintro m₁ ⟨ctl, procs, vm⟩
    refine ⟨?_, procs, vm⟩
    unfold SameCtl Machine.setCtl at *
    rw [ctl]
  refine Triple.bind triple_look fun m₁ => ?_
  rintro m₂ holds live ⟨rfl, looked⟩
  have cr3 : m₁.cr3 = m.cr3 := by rw [looked.ctl]
  have wf₁ : m₁.kernel.mem.vm.abs.Wf := looked.vm ▸ wf
  rw [cr3]
  have works := works_handlePageFault m.cr3 present write v
  have via : (handlePageFault m.cr3 present write v).All (Via m₁.toCtl) := by
    refine via_of_works ?_
    rw [cr3]
    exact works
  have inside := (triple_aside works (D := Aside False m.running m.cr3 m.kernel) fun _ h _ => h).also
    (@triple_handlePageFault_keeps False _ _ _ m₁.kernel wf₁ present write v) fun _ _ no => no.elim
  refine (triple_lift holds.1 via inside m₁ holds live
    ⟨.refl m₁, looked.aside wf _ _, .refl m₁.kernel, rfl⟩).mono ?_
  rintro _ m₃ ⟨ctl, -, procs, keeps⟩
  refine ⟨looked.ctl.trans ctl, looked.procs.trans procs, ?_, fun there => keeps.present ?_,
    fun q own => ?_⟩
  · rw [← looked.vm]
    exact keeps.apart
  · rwa [Present, looked.vm]
  · have same : m₁.kernel.mem.state = m.kernel.mem.state := by
      funext e q
      simp only [Mem.state, looked.vm]
    rw [keeps.own q (own.congr (by rw [same])), same]

/-- A user access itself changes no page table. -/
theorem access_vm (t v : Nat) (b : UInt8) (s : Kernel) :
    (Kernel.exec t (.load v) s).1.mem.vm = s.mem.vm ∧
      (Kernel.exec t (.store v b) s).1.mem.vm = s.mem.vm := by
  simp only [Kernel.exec, Kernel.userAccess]
  constructor <;> (split <;> try rfl) <;> (split <;> rfl)

theorem triple_userFault (wf : m.kernel.mem.vm.abs.Wf) (present write : Bool) (v : Nat) :
    (call m.running (slain m.running m.cr3 m.kernel) False).Triple () (Looked m)
      (userFault present write v) fun _ => Survived m := by
  refine Triple.bind (Q := fun _ => Looked m) (Triple.atOnce ?_) fun pr => ?_
  · exact fun _ holds _ looked => ⟨holds, fun _ => looked⟩
  cases pr with
  | none => exact Triple.ret fun _ _ looked => looked.survived wf
  | some pr =>
      dsimp only
      split
      · exact Triple.ret fun _ _ looked => looked.survived wf
      · exact triple_pageFault wf present write v

/-- A user access, with the fault that it may end in. -/
theorem triple_access (wf : m.kernel.mem.vm.abs.Wf) {a : Act} (onMemory : OnMemory a)
    (via : ∀ c, Via c a) (vm : ∀ s, (Kernel.exec m.running a s).1.mem.vm = s.mem.vm)
    {k : a.Result → KProgram Unit}
    (next : ∀ r, (call m.running (slain m.running m.cr3 m.kernel) False).Triple () (Looked m) (k r)
      fun _ => Survived m) :
    (call m.running (slain m.running m.cr3 m.kernel) False).Triple () (Looked m) (mem a >>= k)
      fun _ => Survived m := by
  refine Triple.bind (Q := fun _ => Looked m) (Triple.atOnce ?_) next
  rintro m₁ ⟨running, -⟩ - looked
  obtain ⟨ctl, kernel, -⟩ := exec_mem (via m₁.toCtl)
  rw [running] at kernel
  have after : Looked m (Machine.exec (.mem a) m₁).1 := by
    refine ⟨looked.ctl.trans ctl, ?_, ?_⟩ <;> rw [kernel]
    · exact looked.procs.trans (sameProcs_exec onMemory m.running m₁.kernel)
    · rw [vm, looked.vm]
  refine ⟨⟨?_, fun _ => after.aside wf _ _⟩, fun _ => after⟩
  rw [ctl]
  exact running

theorem triple_load (wf : m.kernel.mem.vm.abs.Wf) (v : Nat) :
    (call m.running (slain m.running m.cr3 m.kernel) False).Triple () (Looked m) (load v)
      fun _ => Survived m := by
  refine triple_access wf (a := .load v) trivial (fun _ => trivial)
    (fun s => (access_vm m.running v 0 s).1) fun r => ?_
  cases r with
  | done => exact Triple.ret fun _ _ looked => looked.survived wf
  | fault present => exact triple_userFault wf present false v

theorem triple_store (wf : m.kernel.mem.vm.abs.Wf) (v : Nat) (b : UInt8) :
    (call m.running (slain m.running m.cr3 m.kernel) False).Triple () (Looked m) (store v b)
      fun _ => Survived m := by
  refine triple_access wf (a := .store v b) trivial (fun _ => trivial)
    (fun s => (access_vm m.running v b s).2) fun r => ?_
  cases r with
  | done => exact Triple.ret fun _ _ looked => looked.survived wf
  | fault present => exact triple_userFault wf present true v

end

end OsKernel.Syscall
