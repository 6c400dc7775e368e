/-
Programs that work in one directory.

Apart from asking and from allocating, the programs of the memory model that a call
runs act on one directory only (`Works`), and where they cannot go on they let the
thread die in it. `Aside` is what such a program leaves alone.
-/

import OsKernel.Syscall.Rules

namespace OsKernel.Syscall

open OsKernel.Vm OsKernel.Memory Prog Sys

/-- The actions of a program that works in directory `d`. -/
def Works (d : Nat) : Act → Prop
  | .current | .malloc _ | .checkUserPage .. | .getAccess .. | .getAvailability .. => True
  | .mapNewFrame e _ | .mapZeroFrame e _ | .unmapFrame e .. | .setAccess e .. => e = d
  | .setAvailability e .. | .clearPage e _ | .place e .. | .vanish e => e = d
  | _ => False

/-- Those of them that change no access bits. -/
def Releases (d : Nat) : Act → Prop
  | .setAccess .. => False
  | a => Works d a

/-- Those that take nothing away from the directory. -/
def Grows (d : Nat) : Act → Prop
  | .unmapFrame .. => False
  | a => Releases d a

theorem Releases.works {d : Nat} {a : Act} (h : Releases d a) : Works d a := by
  cases a with
  | setAccess e v n => exact h.elim
  | _ => exact h

theorem Grows.releases {d : Nat} {a : Act} (h : Grows d a) : Releases d a := by
  cases a with
  | unmapFrame => exact h.elim
  | _ => exact h

theorem Grows.works {d : Nat} {a : Act} (h : Grows d a) : Works d a := h.releases.works

theorem Works.via {c : Ctl} {a : Act} (h : Works c.cr3 a) : Via c a := by
  cases a with
  | clearPage e v => exact h
  | place e v b => exact h
  | copyPage e child v => exact h.elim
  | copyOut e v b => exact h.elim
  | _ => trivial

theorem via_of_works {α : Type} {c : Ctl} {p : Program α} (h : p.All (Works c.cr3)) :
    p.All (Via c) :=
  h.mono fun _ => Works.via

/-! ### Pages and faults -/

theorem releases_releasePages (d base : Nat) (js : List Nat) :
    (releasePages d base js).All (Releases d) := by
  induction js with
  | nil => trivial
  | cons j js ih =>
      exact all_bind (all_perform (by trivial)) fun _ => all_bind (all_perform (by trivial)) fun _ => ih

theorem works_releasePages (d base : Nat) (js : List Nat) : (releasePages d base js).All (Works d) :=
  (releases_releasePages d base js).mono fun _ => Releases.works

theorem grows_mapAndClearNew (d : Nat) (v : Nat) : (mapAndClearNew d v).All (Grows d) := by
  refine all_bind (all_perform (by trivial)) fun r => ?_
  cases r with
  | true => exact all_bind (all_perform rfl) fun _ => trivial
  | false => trivial

theorem grows_newPage (d : Nat) (v : Nat) : (newPage d v).All (Grows d) := by
  refine all_bind (all_perform (by trivial)) fun r => ?_
  rcases r with - | - | -
  · trivial
  swap
  · trivial
  refine all_bind (all_perform (by trivial)) fun r => ?_
  cases r with
  | false => trivial
  | true =>
      refine all_bind (grows_mapAndClearNew d v) fun r => ?_
      cases r with
      | true => trivial
      | false => exact all_bind (all_perform (by trivial)) fun _ => trivial

theorem releases_newPagesLoop (d : Nat) (base i n : Nat) :
    (newPagesLoop d base i n).All (Releases d) := by
  induction n generalizing i with
  | zero => trivial
  | succ n ih =>
      refine all_bind ((grows_newPage d _).mono fun _ => Grows.releases) fun r => ?_
      cases r with
      | true => exact ih (i + 1)
      | false => exact all_bind (releases_releasePages d _ _) fun _ => trivial

theorem works_newPagesLoop (d : Nat) (base i n : Nat) :
    (newPagesLoop d base i n).All (Works d) :=
  (releases_newPagesLoop d base i n).mono fun _ => Releases.works

theorem works_removeLoop (d : Nat) (vs : List Nat) :
    (forAll (removePage d) vs).All (Works d) := by
  refine all_forAll fun v _ => all_bind (all_perform (by trivial)) fun r => ?_
  cases r with
  | true => exact all_perform (by trivial)
  | false => trivial

/-- A page that is not present is given a frame. -/
theorem grows_repairPage (d : Nat) (write : Bool) (v : Nat) :
    (repairPage d false write v).All (Grows d) := by
  refine all_bind (all_perform (by trivial)) fun r => ?_
  split
  · split
    · exact grows_mapAndClearNew d v
    · exact all_perform (by trivial)
  · trivial

theorem works_repairPage (d : Nat) (present write : Bool) (v : Nat) :
    (repairPage d present write v).All (Works d) := by
  cases present with
  | false => exact (grows_repairPage d write v).mono fun _ => Grows.works
  | true =>
      refine all_bind (all_perform (by trivial)) fun r => ?_
      split
      · refine all_bind (all_perform (by trivial)) fun r => ?_
        split
        · exact (grows_mapAndClearNew d v).mono fun _ => Grows.works
        · trivial
      · trivial

theorem grows_handlePageFault (d : Nat) (write : Bool) (v : Nat) :
    (handlePageFault d false write v).All (Grows d) := by
  refine all_bind (grows_repairPage d write v) fun r => ?_
  split
  · trivial
  · exact all_perform (by trivial)

theorem works_handlePageFault (d : Nat) (present write : Bool) (v : Nat) :
    (handlePageFault d present write v).All (Works d) := by
  refine all_bind (works_repairPage d present write v) fun r => ?_
  split
  · trivial
  · exact all_perform (by trivial)

/-! ### The loader -/

section
variable (d : Nat)

theorem grows_mallocs (sizes : List Nat) : (mallocs sizes).All (Grows d) :=
  all_forAll fun _ _ => all_perform (by trivial)

theorem works_mallocs (sizes : List Nat) : (mallocs sizes).All (Works d) :=
  (grows_mallocs d sizes).mono fun _ => Grows.works

theorem grows_changeAvailability (addr size n : Nat) :
    (changeAvailability d addr size n).All (Grows d) :=
  all_forAll fun _ _ => all_perform (by trivial)

theorem works_changeAccess (addr size n : Nat) : (changeAccess d addr size n).All (Works d) :=
  all_forAll fun _ _ => all_perform (by trivial)

theorem grows_mapAndClear (addr size : Nat) (zeroFrame : Bool) :
    (mapAndClear d addr size zeroFrame).All (Grows d) := by
  refine all_forAll fun v _ => all_bind (all_perform (by trivial)) fun r => ?_
  rcases r with - | - | - | - | -
  any_goals trivial
  all_goals
    refine all_bind (all_perform (by trivial)) fun r => ?_
    split
    · split
      · exact all_perform (by trivial)
      · exact grows_mapAndClearNew d v
    · trivial

theorem grows_placeBytes (v : Nat) (bytes : List UInt8) : (placeBytes d v bytes).All (Grows d) := by
  induction bytes generalizing v with
  | nil => trivial
  | cons b bs ih =>
      refine all_bind (all_bind (all_perform rfl) fun r => ?_) fun _ => ih (v + 1)
      split
      · trivial
      · exact all_bind (grows_handlePageFault d _ _) fun _ =>
          all_bind (all_perform rfl) fun _ => trivial

theorem grows_pushVal (esp : Nat) (val : List UInt8) : (pushVal d esp val).All (Grows d) := by
  unfold pushVal
  split
  · trivial
  refine all_bind (grows_mapAndClear d _ _ _) fun r => ?_
  split
  · exact all_bind (grows_placeBytes d _ _) fun _ => trivial
  · trivial

theorem grows_pushVals (esp : Nat) (vals : List (List UInt8)) :
    (pushVals d esp vals).All (Grows d) := by
  induction vals generalizing esp with
  | nil => trivial
  | cons val vals ih =>
      refine all_bind (grows_pushVal d esp val) fun r => ?_
      cases r with
      | none => trivial
      | some out =>
          refine all_bind (ih out.1) fun r => ?_
          cases r <;> trivial

theorem grows_pushArguments (stackLow stackHigh : Nat) (args : List (List UInt8)) :
    (pushArguments d stackLow stackHigh args).All (Grows d) := by
  refine all_bind (grows_pushVals d _ _) fun r => ?_
  cases r with
  | none => trivial
  | some out =>
      refine all_bind (grows_pushVals d _ _) fun r => ?_
      cases r with
      | none => trivial
      | some out =>
          refine all_bind (grows_pushVals d _ _) fun r => ?_
          cases r <;> trivial

theorem grows_mapRange (addr size : Nat) : (mapRange d addr size).All (Grows d) := by
  refine all_bind (grows_changeAvailability d addr size 1) fun r => ?_
  split
  · exact grows_mapAndClear d addr size false
  · trivial

theorem grows_prepareStack (guest : Bool) (stackLow : Nat) :
    (prepareStack d guest stackLow).All (Grows d) := by
  -- for any range: the pages of a closed range would be listed while checking
  have both : ∀ addr size len, (if guest then mapRange d addr size
      else changeAvailability d stackLow len 1).All (Grows d) := by
    intro addr size len
    split
    · exact grows_mapRange d addr size
    · exact grows_changeAvailability d stackLow len 1
  exact both userMemStart guestMemSize (userStackLen * 4)

theorem grows_loadStack (guest : Bool) (args : List (List UInt8)) :
    (loadStack d guest args).All (Grows d) := by
  refine all_bind (grows_prepareStack d guest _) fun r => ?_
  split
  swap
  · trivial
  refine all_bind (grows_pushArguments d _ _ _) fun r => ?_
  cases r with
  | none => trivial
  | some out =>
      have rest : ∀ addr size, (do
          if ← mapAndClear d addr size true then pure (some out.2)
          else pure none : Program (Option Placed)).All (Grows d) := by
        intro addr size
        refine all_bind (grows_mapAndClear d addr size true) fun r => ?_
        split <;> trivial
      exact rest _ _

theorem grows_copySection (v : Nat) (file : List UInt8) (s : Section) :
    (copySection d v file s).All (Grows d) := by
  unfold copySection
  split
  · trivial
  · split
    · trivial
    · exact all_bind (grows_placeBytes d _ _) fun _ => trivial

theorem grows_loadSection (file : List UInt8) (s : Section) :
    (loadSection d file s).All (Grows d) := by
  refine all_bind (grows_mapAndClear d _ _ _) fun r => ?_
  split
  · exact grows_copySection d _ _ _
  · trivial

theorem grows_loadSections {load : Section → Program (Option Placed)}
    (each : ∀ s, (load s).All (Grows d)) (ss : List Section) :
    (loadSections load ss).All (Grows d) := by
  induction ss with
  | nil => trivial
  | cons s ss ih =>
      refine all_bind (each s) fun r => ?_
      cases r with
      | none => trivial
      | some placed =>
          refine all_bind ih fun r => ?_
          cases r <;> trivial

theorem works_loadUser (image : Image) : (loadUser d image).All (Works d) := by
  refine all_bind (all_forAll fun _ _ =>
    (grows_changeAvailability d _ _ _).mono fun _ => Grows.works) fun r => ?_
  split
  swap
  · trivial
  refine all_bind ((grows_loadSections d (grows_loadSection d image.file) _).mono
    fun _ => Grows.works) fun r => ?_
  cases r with
  | none => trivial
  | some placed =>
      refine all_bind (works_changeAccess d _ _ _) fun r => ?_
      split
      swap
      · trivial
      refine all_bind (works_changeAccess d _ _ _) fun r => ?_
      split
      swap
      · trivial
      refine all_bind (works_changeAccess d _ _ _) fun r => ?_
      split
      swap
      · trivial
      refine all_bind ((grows_mapAndClear d _ _ _).mono fun _ => Grows.works) fun r => ?_
      split <;> trivial

theorem works_loadImage (image : Image) (args : List (List UInt8)) :
    (loadImage d image args).All (Works d) := by
  refine all_bind ((grows_loadStack d _ _).mono fun _ => Grows.works) fun r => ?_
  cases r with
  | none => trivial
  | some placed =>
      refine all_bind ?_ fun r => ?_
      · split
        · exact (grows_loadSections d (fun s => grows_copySection d _ _ _) _).mono
            fun _ => Grows.works
        · exact works_loadUser d image
      · cases r <;> trivial

end

/-! ### What such a program leaves alone -/

section
variable {d t : Nat}

/-- The frame behind an address is one of the kernel, or one that the directory maps. -/
theorem frameAt_spec {m : Mem} (wf : m.vm.abs.Wf) {v f : Nat} (h : m.frameAt d v = some f) :
    ∃ n, f = n * pageSize ∧ (f < userPageStart ∨ m.vm.abs.Maps d (pageOf v) f) := by
  rw [frameAt_eq] at h
  obtain ⟨state, hs, frame⟩ := Option.bind_eq_some_iff.mp h
  obtain ⟨space, hd, rfl⟩ := Option.map_eq_some_iff.mp hs
  cases mapped : space (pageOf v) with
  | unmapped avail =>
      rw [mapped] at frame
      cases frame
  | mapped pte =>
      rw [mapped, PageState.frame?, Option.some.injEq] at frame
      refine ⟨pte.pageAddr, frame.symm, ?_⟩
      by_cases user : UserPage (pageOf v)
      · exact .inr ⟨user, space, hd, by rw [mapped, PageState.frame?, frame]⟩
      · have low : pageOf v < kernelPageCount := by
          have := pageOf_lt v
          unfold UserPage at user
          omega
        have kernel := wf.kernel d space _ hd low
        rw [mapped, PageState.mapped.injEq] at kernel
        have frame' : pageOf v * pageSize = f := by
          rw [kernel] at frame
          exact frame
        exact .inl (frame' ▸ not_userPage.mpr user)

/-- The frames of the user that neither the pool nor the directory has are as they
were. -/
def SpareFrames (d : Nat) (m m' : Mem) : Prop :=
  ∀ n off, off < pageSize → userPageStart ≤ n * pageSize → n * pageSize ≠ zeroFrame →
    ¬ m.vm.Has d (n * pageSize) → m'.phys (n * pageSize + off) = m.phys (n * pageSize + off)

theorem spareFrames_fill {m : Mem} (wf : m.vm.abs.Wf) {v f : Nat} (h : m.frameAt d v = some f)
    (bytes : Nat → UInt8) : SpareFrames d m (m.fill f bytes) := by
  obtain ⟨k, rfl, where'⟩ := frameAt_spec wf h
  intro n off hoff user _ spare
  have ne : n ≠ k := by
    rintro rfl
    rcases where' with low | maps
    · exact absurd low (Nat.not_lt.mpr user)
    · exact spare (.inr ⟨_, maps⟩)
  simp only [Mem.fill, ite_eq_right_iff, and_imp]
  intro ge lt
  exact absurd (frame_eq_of_byte hoff ge lt) ne

theorem kstore_vm (s : Kernel) (d v : Nat) (b : UInt8) :
    (s.kstore d v b).1.mem.vm = s.mem.vm := by
  unfold Kernel.kstore
  cases h : s.mem.kstore d v b with
  | none => rfl
  | some mem =>
      obtain ⟨a, -, rfl⟩ := Option.map_eq_some_iff.mp h
      rfl

theorem spareFrames_kstore {s : Kernel} (wf : s.mem.vm.abs.Wf) (v : Nat) (b : UInt8) :
    SpareFrames d s.mem (s.kstore d v b).1.mem := by
  unfold Kernel.kstore
  cases h : s.mem.kstore d v b with
  | none => exact fun _ _ _ _ _ _ => rfl
  | some mem =>
      obtain ⟨a, at', rfl⟩ := Option.map_eq_some_iff.mp h
      obtain ⟨pd, dir, at'⟩ := Option.bind_eq_some_iff.mp at'
      obtain ⟨f, frame, rfl⟩ := Option.map_eq_some_iff.mp at'
      have here : s.mem.frameAt d v = some f := by rw [Mem.frameAt, dir]; exact frame
      obtain ⟨k, rfl, where'⟩ := frameAt_spec wf here
      intro n off hoff user _ spare
      have ne : n * pageSize + off ≠ k * pageSize + v % pageSize := by
        intro eq
        have lt := off_lt v
        obtain rfl : n = k := frame_eq_of_byte hoff (by omega) (by omega)
        rcases where' with low | maps
        · exact absurd low (Nat.not_lt.mpr user)
        · exact spare (.inr ⟨_, maps⟩)
      simp only [Mem.put]
      rw [Function.update_of_ne ne]

/-- Thread `t` has died in directory `d`. -/
def Died (t d : Nat) (s s' : Kernel) : Prop :=
  ∃ p pr, s.thread t = some p ∧ s.procs p = some pr ∧
    s'.thread = Function.update s.thread t none ∧ s'.threadCount = s.threadCount ∧
    s'.procs = Function.update s.procs p (some { pr with dir := d })

/-- All that has happened since `s₀` happened in directory `d`, or thread `t` has
died there. -/
structure Aside (exact : Prop) (t d : Nat) (s₀ s : Kernel) : Prop where
  apart : Apart d s₀.mem.vm s.mem.vm
  within : exact → Within d s₀.mem.vm s.mem.vm
  spare : exact → SpareFrames d s₀.mem s.mem
  procs : SameProcs s₀ s ∨ Died t d s₀ s

variable {exact : Prop} {s₀ s : Kernel}

theorem Aside.refl (wf : s.mem.vm.abs.Wf) : Aside exact t d s s :=
  ⟨.refl wf d, fun _ => .refl wf d, fun _ _ _ _ _ _ _ => rfl, .inl (.refl s)⟩

theorem Aside.wf (h : Aside exact t d s₀ s) : s.mem.vm.abs.Wf := h.apart.wf

/-- As long as the thread is alive, processes and threads are the same. -/
theorem Aside.alive (h : Aside exact t d s₀ s) (alive : Kernel.alive t s = true) :
    SameProcs s₀ s := by
  rcases h.procs with same | ⟨p, pr, -, -, thread, -⟩
  · exact same
  · rw [Kernel.alive, thread, Function.update_self] at alive
    cases alive

/-- What one action does. -/
theorem works_exec {a : Act} (works : Works d a) (wf : s.mem.vm.abs.Wf) :
    Apart d s.mem.vm (Kernel.exec t a s).1.mem.vm ∧
      (Frees a s → Within d s.mem.vm (Kernel.exec t a s).1.mem.vm) ∧
      SpareFrames d s.mem (Kernel.exec t a s).1.mem := by
  have same : SpareFrames d s.mem s.mem := fun _ _ _ _ _ _ => rfl
  have withVm : ∀ {vm : VmState}, Within d s.mem.vm vm → Apart d s.mem.vm (s.mem.withVm vm).vm ∧
      (Frees a s → Within d s.mem.vm (s.mem.withVm vm).vm) ∧
      SpareFrames d s.mem (s.mem.withVm vm) :=
    fun h => ⟨h.toApart, fun _ => h, fun _ _ _ _ _ _ => rfl⟩
  have refl : Apart d s.mem.vm s.mem.vm ∧ (Frees a s → Within d s.mem.vm s.mem.vm) ∧
      SpareFrames d s.mem s.mem := withVm (.refl wf d)
  cases a with
  | current => exact refl
  | malloc size =>
      simp only [Kernel.exec]
      split
      · exact refl
      · exact withVm (within_malloc wf d)
  | checkUserPage e v => exact refl
  | getAccess e v => exact refl
  | getAvailability e v => exact refl
  | mapNewFrame e v =>
      cases works
      exact withVm (within_mapNewFrame wf _ v)
  | mapZeroFrame e v =>
      cases works
      exact withVm (within_mapZeroFrame wf _ v)
  | setAccess e v n =>
      cases works
      exact withVm (within_setAccess wf _ v n)
  | setAvailability e v n =>
      cases works
      obtain ⟨-, mem, -⟩ := exec_setAvailability t s d v n
      rw [mem]
      exact withVm (within_setAvailability wf _ v n)
  | unmapFrame e v released =>
      cases works
      obtain ⟨-, mem, -⟩ := exec_unmapFrame t s d v released
      rw [mem]
      exact ⟨⟨wf.unmapFrame d v, fun _ ne => unmapFrame_dirs _ v ne, unmapFrame_next s.mem.vm d v⟩,
        fun frees => within_unmapFrame wf d v frees, same⟩
  | clearPage e v =>
      cases works
      simp only [Kernel.exec, Mem.clearPage]
      cases frame : s.mem.frameAt d v with
      | none => exact refl
      | some f => exact ⟨.refl wf d, fun _ => .refl wf d, spareFrames_fill wf frame _⟩
  | place e v b =>
      cases works
      have vm : (Kernel.exec t (.place d v b) s).1.mem.vm = s.mem.vm := kstore_vm s d _ b
      rw [vm]
      exact ⟨.refl wf d, fun _ => .refl wf d, spareFrames_kstore wf _ b⟩
  | vanish e =>
      simp only [Kernel.exec]
      split <;> exact refl
  | _ => exact works.elim

theorem Works.onMemory {a : Act} (works : Works d a) (stays : ∀ e, a ≠ .vanish e) : OnMemory a := by
  cases a with
  | vanish e => exact absurd rfl (stays e)
  | setAllocations | newProcess | newThread | newImage | killSiblings | detach => exact works.elim
  | _ => trivial

/-- One action more, of a thread that is still alive. -/
theorem Aside.step {a : Act} (h : Aside exact t d s₀ s) (alive : Kernel.alive t s = true)
    (works : Works d a) (frees : exact → Frees a s) : Aside exact t d s₀ (Kernel.exec t a s).1 := by
  obtain ⟨apart, within, spare⟩ := works_exec (t := t) works h.wf
  refine ⟨h.apart.trans apart, fun e => (h.within e).trans (within (frees e)), fun e => ?_, ?_⟩
  · intro n off hoff user nz none
    rw [spare n off hoff user nz fun has => none (((h.within e).frames _ nz).mp has)]
    exact h.spare e n off hoff user nz none
  have same := h.alive alive
  by_cases dies : ∃ e, a = .vanish e
  · obtain ⟨e, rfl⟩ := dies
    cases works
    obtain ⟨p, thread⟩ := Option.isSome_iff_exists.mp alive
    cases proc : s.procs p with
    | none =>
        left
        simpa [Kernel.exec, Kernel.proc, thread, proc] using same
    | some pr =>
        right
        refine ⟨p, pr, by rw [← same.thread, thread], by rw [← same.procs, proc], ?_⟩
        rw [← same.thread, ← same.procs, ← same.threadCount]
        simp [Kernel.exec, Kernel.proc, thread, proc]
  · exact .inl (same.trans (sameProcs_exec (works.onMemory fun e eq => dies ⟨e, eq⟩) t s))

/-- A program that works in directory `d`. The invariant says what holds when the thread
has died. -/
theorem triple_aside {α : Type} {p : Program α} (works : p.All (Works d)) {D : Kernel → Prop}
    (dies : ∀ s, Aside exact t d s₀ s → Kernel.alive t s = false → D s) :
    (solo t (fun s => Kernel.alive t s = false → D s) exact).Triple () (Aside exact t d s₀) p
      fun _ => Aside exact t d s₀ := by
  induction p with
  | ret x => exact Triple.ret fun _ _ h => h
  | act a k ih =>
      rintro s - - h _ rfl inv alive frees
      have next := h.step alive works.1 frees
      refine ⟨dies _ next, fun _ ne => (ne rfl).elim, fun live => ?_⟩
      exact ih _ (works.2 _) _ (dies _ next) live next

end

end OsKernel.Syscall
