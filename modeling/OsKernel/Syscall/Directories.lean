/-
The directory of a process is there.

The programs that work in a directory take no directory away (`works_present`), and
`load_executable` gives up the old one only when the PCB names the new one, or the new
one when it does not (`triple_exec_housed`).
-/

import OsKernel.Syscall.Faults

namespace OsKernel.Syscall

open OsKernel.Vm OsKernel.Memory Prog Sys

/-! ### Directories -/

section
variable {d t : Nat} {m m' : Mem} {s s' s₀ s₁ : Kernel}

theorem works_present {a : Act} (works : Works d a) (wf : s.mem.vm.abs.Wf) (h : Present d s.mem) :
    Present d (Kernel.exec t a s).1.mem := by
  cases a with
  | current | checkUserPage | getAccess | getAvailability => exact h
  | malloc size =>
      simp only [Kernel.exec]
      split <;> exact h
  | mapNewFrame e v =>
      cases works
      rcases mapNewFrame_put wf v with ⟨-, same⟩ | ⟨_, _, -, -, -, -, -, -, -, put⟩
      · exact same.present h
      · exact put.present
  | mapZeroFrame e v =>
      cases works
      rcases mapZeroFrame_put wf v with ⟨-, same⟩ | ⟨_, -, -, -, put⟩
      · exact same.present h
      · exact put.present
  | setAccess e v n =>
      cases works
      rcases setAccess_put wf v n with ⟨-, same⟩ | ⟨_, _, -, -, -, -, put⟩
      · exact same.present h
      · exact put.present
  | setAvailability e v n =>
      cases works
      obtain ⟨-, mem, -⟩ := exec_setAvailability t s d v n
      rw [mem]
      rcases setAvailability_put wf v n with ⟨-, same⟩ | ⟨_, _, -, -, -, -, put⟩
      · exact same.present h
      · exact put.present
  | unmapFrame e v released =>
      cases works
      obtain ⟨-, mem, -⟩ := exec_unmapFrame t s d v released
      rw [mem]
      rcases unmapFrame_spec s.mem.vm d v with ⟨-, abs⟩ | ⟨space, pte, _, -, hd, user, state, -⟩
      · exact h.congr (state_of_abs abs 0)
      · have mapped : s.mem.state d (pageOf v) = some (.mapped pte) := by rw [state_of_space hd, state]
        exact (unmapFrame_put wf v user mapped False.elim).2.2.present
  | clearPage e v =>
      simp only [Kernel.exec, Mem.clearPage]
      split <;> exact h
  | place e v b =>
      have vm : (Kernel.exec t (.place e v b) s).1.mem.vm = s.mem.vm := kstore_vm s e _ b
      rw [Present, vm]
      exact h
  | vanish e =>
      simp only [Kernel.exec]
      split <;> exact h
  | _ => exact works.elim

/-- A program that works in a directory keeps it, and every other one. -/
theorem triple_present {α : Type} {p : Program α} (works : p.All (Works d)) :
    (loader False t).Triple () (fun s => Aside False t d s₀ s ∧ Present d s.mem) p
      fun _ s => Aside False t d s₀ s ∧ Present d s.mem := by
  induction p with
  | ret x => exact Triple.ret fun _ _ h => h
  | act a k ih =>
      rintro s - - ⟨aside, h⟩ _ rfl - alive -
      have aside' := aside.step alive works.1 (fun no => no.elim)
      have h' := works_present (t := t) works.1 aside.wf h
      exact ⟨fun no => no.elim, fun _ ne => (ne rfl).elim, fun live =>
        ih _ (works.2 _) _ (fun no => no.elim) live ⟨aside', h'⟩⟩

/-- The thread is in a process whose directory is there. -/
def Housed (t : Nat) (s : Kernel) : Prop := ∀ pr, s.proc t = some pr → Present pr.dir s.mem

/-- `construct_page_dir` in the memory model. -/
theorem kernel_constructPageDir (wf : s.mem.vm.abs.Wf) : ∃ s' r,
    Kernel.exec t .constructPageDir s = (s', r) ∧ SameProcs s s' ∧
      ((r = none ∧ s'.mem.vm.dirs = s.mem.vm.dirs) ∨
        ∃ d, r = some d ∧ Opened d s s') := by
  obtain ⟨s', r, ran, procs, phys, cases⟩ :=
    exec_constructPageDir (m := { toCtl := { emptyCtl with running := t }, kernel := s }) wf
  refine ⟨s', r, ?_, procs, ?_⟩
  · have kernel := congrArg (fun out => out.1.kernel) ran
    have result := congrArg Prod.snd ran
    exact Prod.ext kernel result
  · rcases cases with ⟨rfl, dirs, -⟩ | ⟨rfl, made⟩
    · exact .inl ⟨rfl, dirs⟩
    · exact .inr ⟨_, rfl, made, phys, procs⟩

/-- The process of the thread is as it was, and so is its directory. -/
theorem Housed.of_dirs (h : Housed t s) (procs : SameProcs s s')
    (dirs : ∀ pr, s.proc t = some pr → s'.mem.vm.dirs pr.dir = s.mem.vm.dirs pr.dir) :
    Housed t s' := by
  intro pr proc
  rw [Kernel.proc, procs.thread, procs.procs] at proc
  rw [Present, dirs pr proc]
  exact h pr proc

/-- The new directory is given up. -/
theorem triple_giveUp_housed (housed : Housed t s₀) (opened : Opened d s₀ s₁) :
    (loader False t).Triple () (Aside False t d s₁) (act (.destructPageDir d)) fun _ => Housed t := by
  refine Triple.whileLive (Triple.atOnce ?_)
  rintro s - - ⟨live, aside⟩
  refine ⟨fun no => no.elim, fun _ => housed.of_dirs ?_ fun pr proc => ?_⟩
  · exact opened.procs.trans ((aside.alive live).trans ⟨rfl, rfl, rfl⟩)
  · change (destructPageDir s.mem.vm d).dirs pr.dir = _
    rw [opened.made.destruct aside.apart]

/-- The directory of the thread's process is there after `exec` too. -/
theorem triple_loadExecutable_housed (image : Option Image) (name : List UInt8)
    (args : List (List UInt8)) (wf : s₀.mem.vm.abs.Wf) (housed : Housed t s₀) :
    (loader False t).Triple () (Eq s₀) (Memory.loadExecutable image name args) fun _ => Housed t := by
  cases image with
  | none => exact Triple.ret fun _ _ h => h ▸ housed
  | some image =>
  refine Triple.bind (Q := fun r s => s₀ = s ∧ r = s₀.proc t) (Triple.atOnce ?_) fun r => ?_
  · rintro _ - - rfl
    exact ⟨fun no => no.elim, fun _ => ⟨rfl, rfl⟩⟩
  cases r with
  | none => exact Triple.ret fun _ _ h => h.1 ▸ housed
  | some pr =>
  rintro _ - live ⟨rfl, proc⟩
  refine Triple.bind (Q := fun r s => r.elim (Housed t s) fun d => Opened d s₀ s)
    (Triple.atOnce ?_) (fun r => ?_) s₀ (fun no => no.elim) live rfl
  · rintro _ - - rfl
    refine ⟨fun no => no.elim, fun _ => ?_⟩
    obtain ⟨s', r, ran, procs, cases⟩ := kernel_constructPageDir (t := t) wf
    rw [ran]
    rcases cases with ⟨rfl, dirs⟩ | ⟨d, rfl, opened⟩
    · exact housed.of_dirs procs fun pr _ => by rw [dirs]
    · exact opened
  cases r with
  | none => exact Triple.ret fun _ _ h => h
  | some d =>
  rintro s₁ - live₁ opened
  have ne : d ≠ pr.dir := by
    rintro rfl
    have := housed pr proc.symm
    rw [Present, opened.made.absent] at this
    cases this
  have start : Aside False t d s₁ s₁ ∧ Present d s₁.mem := by
    refine ⟨.refl opened.made.wf, ?_⟩
    rw [Present, opened.made.dirs, Function.update_self]
    rfl
  refine Triple.bind (triple_present (works_mallocs d _)) (fun ok => ?_) s₁ (fun no => no.elim) live₁
    start
  cases ok with
  | false => exact Triple.conseq (triple_giveUp_housed housed opened) (fun _ _ h => h.1) fun _ _ h => h
  | true =>
  refine Triple.bind (triple_present (works_loadImage d image args)) fun placed => ?_
  cases placed with
  | none => exact Triple.conseq (triple_giveUp_housed housed opened) (fun _ _ h => h.1) fun _ _ h => h
  | some placed =>
      -- the PCB names the new directory before the old one is given up
      refine Triple.bind (Q := fun _ s => Present d s.mem ∧ (s.proc t).map Proc.dir = some d)
        (Triple.whileLive (Triple.atOnce ?_)) fun _ => Triple.atOnce ?_
      · rintro s - - ⟨live, aside, present⟩
        have procs := opened.procs.trans (aside.alive live)
        obtain ⟨p, thread, proc'⟩ := Option.bind_eq_some_iff.mp proc.symm
        rw [exec_newImage (procs.thread ▸ thread) (procs.procs ▸ proc')]
        refine ⟨fun no => no.elim, fun _ => ⟨present, ?_⟩⟩
        simp [Kernel.proc, procs.thread, thread]
      · rintro s - - ⟨present, dir⟩
        refine ⟨fun no => no.elim, fun _ pr' proc' => ?_⟩
        have proc' : s.proc t = some pr' := proc'
        rw [proc', Option.map_some, Option.some.injEq] at dir
        change ((destructPageDir s.mem.vm pr.dir).dirs pr'.dir).isSome = true
        rw [destructPageDir_dirs, dir, Function.update_of_ne ne]
        exact present

/-- `handle_exec`, in the memory model. -/
theorem triple_exec_housed (image : Option Image) (name : List UInt8) (args : List (List UInt8))
    (wf : s₀.mem.vm.abs.Wf) (housed : Housed t s₀) :
    (loader False t).Triple () (Eq s₀) (Memory.exec image name args) fun _ => Housed t := by
  refine Triple.bind (Q := fun _ => Eq s₀) (Triple.atOnce ?_) fun count => ?_
  · rintro _ - - rfl
    exact ⟨fun no => no.elim, fun _ => rfl⟩
  split
  · exact triple_loadExecutable_housed image name args wf housed
  · exact Triple.ret fun _ _ h => h ▸ housed

end

end OsKernel.Syscall
