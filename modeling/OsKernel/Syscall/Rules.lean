/-
Rules for the programs of the memory model when one thread runs them to their end.

`OnMem s₀ R` is an assertion about memory while processes and threads are those of
`s₀`; `triple_mem` is the rule for one action on memory, from what the action does
in every state. `Frees` is the assumption that `free_frame` gets the node it asks
for. `triple_lift` is the rule for a program of the memory model inside a call.
-/

import OsKernel.Syscall.Handlers
import OsKernel.Vm.Accounting

namespace OsKernel.Syscall

open OsKernel.Vm OsKernel.Memory Prog Sys

/-- Whenever the action calls `free_frame`, that gets a node for its list. -/
def Frees : Act → Kernel → Prop
  | .unmapFrame d v _, s => UnmapFrees s.mem.vm d v
  | .destructPageDir d, s => DestructFrees s.mem.vm d
  | _, _ => True

def KFrees : KAct → Machine → Prop
  | .mem a, m => Frees a m.kernel
  | _, _ => True

instance Frees.decidable : ∀ (a : Act) (s : Kernel), Decidable (Frees a s)
  | .unmapFrame d v _, s => inferInstanceAs (Decidable (UnmapFrees s.mem.vm d v))
  | .destructPageDir d, s => inferInstanceAs (Decidable (DestructFrees s.mem.vm d))
  | .current, _ | .threadAliveCount, _ | .malloc _, _ | .constructPageDir, _ | .mapNewFrame .., _
  | .mapZeroFrame .., _ | .setAccess .., _ | .setAvailability .., _ | .checkUserPage .., _
  | .getAccess .., _ | .getAvailability .., _ | .load _, _ | .store .., _ | .clearPage .., _
  | .copyPage .., _ | .place .., _ | .copyOut .., _ | .setAllocations _, _ | .newProcess .., _
  | .newThread, _ | .newImage .., _ | .killSiblings, _ | .vanish _, _ | .detach _, _ =>
      .isTrue trivial

instance KFrees.decidable : ∀ (a : KAct) (m : Machine), Decidable (KFrees a m)
  | .mem a, m => Frees.decidable a m.kernel
  | .ctl _, _ | .look, _ => .isTrue trivial

/-- `free_frame` gets its nodes all through a call. -/
def Machine.Frees {α : Type} (m : Machine) (p : KProgram α) : Prop :=
  p.Meets Machine.exec Machine.live KFrees m

instance Machine.Frees.decidable {α : Type} (m : Machine) (p : KProgram α) :
    Decidable (m.Frees p) :=
  inferInstanceAs (Decidable (p.Meets Machine.exec Machine.live KFrees m))

/-! ### One action -/

/-- The processes and the threads are the same. -/
structure SameProcs (s s' : Kernel) : Prop where
  thread : s'.thread = s.thread
  procs : s'.procs = s.procs
  threadCount : s'.threadCount = s.threadCount

theorem SameProcs.refl (s : Kernel) : SameProcs s s := ⟨rfl, rfl, rfl⟩

theorem SameProcs.trans {s s' s'' : Kernel} (h : SameProcs s s') (h' : SameProcs s' s'') :
    SameProcs s s'' :=
  ⟨h'.thread.trans h.thread, h'.procs.trans h.procs, h'.threadCount.trans h.threadCount⟩

theorem sameProcs_mem (s : Kernel) (m : Mem) : SameProcs s { s with mem := m } := ⟨rfl, rfl, rfl⟩

/-- The actions on memory. -/
def OnMemory : Act → Prop
  | .setAllocations _ | .newProcess .. | .newThread | .newImage .. | .killSiblings | .vanish _
  | .detach _ => False
  | _ => True

theorem sameProcs_note (s : Kernel) (t d v : Nat) : SameProcs s (s.noteAvailable t d v) := by
  unfold Kernel.noteAvailable
  split
  · split
    · exact ⟨rfl, rfl, rfl⟩
    · exact .refl s
  · exact .refl s

theorem mem_note (s : Kernel) (t d v : Nat) : (s.noteAvailable t d v).mem = s.mem := by
  unfold Kernel.noteAvailable
  split
  · split <;> rfl
  · rfl

/-- `unmap_frame` as an action. -/
theorem exec_unmapFrame (t : Nat) (s : Kernel) (d v : Nat) (released : Bool) :
    SameProcs s (Kernel.exec t (.unmapFrame d v released) s).1 ∧
      (Kernel.exec t (.unmapFrame d v released) s).1.mem =
        s.mem.withVm (Vm.unmapFrame s.mem.vm d v).2 ∧
      (Kernel.exec t (.unmapFrame d v released) s).2 = (Vm.unmapFrame s.mem.vm d v).1 := by
  simp only [Kernel.exec, Kernel.setVm]
  rcases Vm.unmapFrame s.mem.vm d v with ⟨ok, vm⟩
  cases ok with
  | true =>
      cases released with
      | true => exact ⟨(sameProcs_mem s _).trans (sameProcs_note _ t d v), mem_note _ t d v, rfl⟩
      | false => exact ⟨⟨rfl, rfl, rfl⟩, rfl, rfl⟩
  | false => exact ⟨⟨rfl, rfl, rfl⟩, rfl, rfl⟩

/-- `set_availability` as an action. -/
theorem exec_setAvailability (t : Nat) (s : Kernel) (d v n : Nat) :
    SameProcs s (Kernel.exec t (.setAvailability d v n) s).1 ∧
      (Kernel.exec t (.setAvailability d v n) s).1.mem =
        s.mem.withVm (Vm.setAvailability s.mem.vm d v n).2 ∧
      (Kernel.exec t (.setAvailability d v n) s).2 = (Vm.setAvailability s.mem.vm d v n).1 := by
  simp only [Kernel.exec, Kernel.setVm]
  rcases Vm.setAvailability s.mem.vm d v n with ⟨ok, vm⟩
  cases ok with
  | true =>
      dsimp only
      split
      · exact ⟨(sameProcs_mem s _).trans (sameProcs_note _ t d v), mem_note _ t d v, rfl⟩
      · exact ⟨⟨rfl, rfl, rfl⟩, rfl, rfl⟩
  | false => exact ⟨⟨rfl, rfl, rfl⟩, rfl, rfl⟩

theorem sameProcs_access (s : Kernel) (t v : Nat) (write : Bool) {go : Nat → Nat → Kernel}
    (keeps : ∀ p a, SameProcs s (go p a)) : SameProcs s (s.userAccess t v write go).1 := by
  unfold Kernel.userAccess
  split
  · split
    · exact keeps _ _
    · exact .refl s
  · exact .refl s

theorem sameProcs_kstore (s : Kernel) (d v : Nat) (b : UInt8) :
    SameProcs s (s.kstore d v b).1 := by
  unfold Kernel.kstore
  split
  · exact ⟨rfl, rfl, rfl⟩
  · exact .refl s

/-- An action on memory leaves processes and threads alone. -/
theorem sameProcs_exec {a : Act} (onMemory : OnMemory a) (t : Nat) (s : Kernel) :
    SameProcs s (Kernel.exec t a s).1 := by
  cases a with
  | setAllocations | newProcess | newThread | newImage | killSiblings | vanish | detach =>
      exact onMemory.elim
  | malloc size =>
      simp only [Kernel.exec]
      split <;> exact ⟨rfl, rfl, rfl⟩
  | constructPageDir =>
      simp only [Kernel.exec]
      split <;> exact ⟨rfl, rfl, rfl⟩
  | unmapFrame d v released => exact (exec_unmapFrame t s d v released).1
  | setAvailability d v n => exact (exec_setAvailability t s d v n).1
  | load v => exact sameProcs_access _ _ _ _ fun _ _ => ⟨rfl, rfl, rfl⟩
  | store v b => exact sameProcs_access _ _ _ _ fun _ _ => ⟨rfl, rfl, rfl⟩
  | place d v b => exact sameProcs_kstore _ _ _ _
  | copyOut d v b =>
      have stored := sameProcs_kstore s d (v % virtualAddrEnd) b
      simp only [Kernel.exec]
      split
      · rename_i eq _
        rw [eq] at stored
        exact stored.trans ⟨rfl, rfl, rfl⟩
      · exact stored
  | _ => exact ⟨rfl, rfl, rfl⟩

/-- `construct_page_dir` as an action. -/
theorem exec_constructPageDir {m : Machine} (wf : m.kernel.mem.vm.abs.Wf) :
    ∃ kernel r, Machine.exec (.mem .constructPageDir) m = (m.setKernel kernel, r) ∧
      SameProcs m.kernel kernel ∧ kernel.mem.phys = m.kernel.mem.phys ∧
      ((r = none ∧ kernel.mem.vm.dirs = m.kernel.mem.vm.dirs ∧
          kernel.mem.vm.abs = m.kernel.mem.vm.abs) ∨
        (r = some m.kernel.mem.vm.nextDir ∧
          Constructed m.kernel.mem.vm.nextDir m.kernel.mem.vm kernel.mem.vm)) := by
  refine ⟨_, _, rfl, sameProcs_exec (a := .constructPageDir) trivial m.running m.kernel, ?_⟩
  simp only [Kernel.exec]
  rcases constructPageDir_cases wf with ⟨fails, rest⟩ | ⟨works, made⟩
  · generalize constructPageDir m.kernel.mem.vm = out at fails rest
    obtain ⟨_, vm⟩ := out
    cases fails
    exact ⟨rfl, .inl ⟨rfl, rest⟩⟩
  · generalize constructPageDir m.kernel.mem.vm = out at works made
    obtain ⟨_, vm⟩ := out
    cases works
    exact ⟨rfl, .inr ⟨rfl, made⟩⟩

/-! ### Programs of the memory model in a call -/

/-- Thread `t` alone, with the invariant `inv`; frames are not lost if `exact` says so. -/
abbrev solo (t : Nat) (inv : Kernel → Prop) (exact : Prop) : Sys Kernel Unit Act Act.Result :=
  alone (Kernel.exec t) (Kernel.alive t) inv fun a s => exact → Frees a s

/-- The machine while thread `t` runs, with an invariant of its kernel. -/
abbrev call (t : Nat) (inv : Kernel → Prop) (exact : Prop) : Sys Machine Unit KAct KAct.Result :=
  alone Machine.exec Machine.live (fun m => m.running = t ∧ inv m.kernel)
    fun a m => exact → KFrees a m

theorem safe_lift {α : Type} {inv : Kernel → Prop} {exact : Prop} {m₀ m : Machine} {p : Program α}
    {Q : α → Kernel → Prop} (via : p.All (Via m₀.toCtl)) (ctl : SameCtl m₀ m)
    (safe : (solo m₀.running inv exact).Safe () Q p m.kernel) :
    (call m₀.running inv exact).Safe () (fun x m' => SameCtl m₀ m' ∧ Q x m'.kernel) (lift p) m := by
  induction p generalizing m with
  | ret x => exact ⟨ctl, safe⟩
  | act a k ih =>
      rintro _ rfl ⟨running, holds⟩ live admitted
      obtain ⟨ctl', kernel, result⟩ := exec_mem (via.1.of_same ctl)
      have running' : (Machine.exec (.mem a) m).1.running = m₀.running := by rw [ctl', running]
      obtain ⟨holds', -, next⟩ := safe m.kernel rfl holds (running ▸ live) admitted
      rw [running] at kernel result
      refine ⟨⟨running', ?_⟩, fun _ ne => (ne rfl).elim, fun live' => ?_⟩
      · change inv (Machine.exec (.mem a) m).1.kernel
        rw [kernel]
        exact holds'
      · have live'' : Kernel.alive m₀.running (Kernel.exec m₀.running a m.kernel).1 = true := by
          rw [← kernel, ← running']
          exact live'
        have := next live''
        change (call m₀.running inv exact).Safe () _ (lift (k (Machine.exec (.mem a) m).2))
          (Machine.exec (.mem a) m).1
        rw [result]
        refine ih _ (via.2 _) (ctl.trans ctl') ?_
        rw [kernel]
        exact this

section
variable {t : Nat} {inv : Kernel → Prop} {exact : Prop}

/-- A program of the memory model inside a call. -/
theorem triple_lift {α : Type} {m₀ : Machine} {p : Program α} {P : Kernel → Prop}
    {Q : α → Kernel → Prop} (running : m₀.running = t) (via : p.All (Via m₀.toCtl))
    (triple : (solo t inv exact).Triple () P p Q) :
    (call t inv exact).Triple () (fun m => SameCtl m₀ m ∧ P m.kernel) (lift p)
      fun x m => SameCtl m₀ m ∧ Q x m.kernel := by
  subst running
  rintro m ⟨running, holds⟩ live ⟨ctl, pre⟩
  exact safe_lift via ctl (triple m.kernel holds (running ▸ live) pre)

/-- One action of the memory model inside a call. -/
theorem triple_lift_act {m₀ : Machine} {a : Act} {P : Kernel → Prop}
    {Q : a.Result → Kernel → Prop} (running : m₀.running = t)
    (via : Via m₀.toCtl a) (triple : (solo t inv exact).Triple () P (act a) Q) :
    (call t inv exact).Triple () (fun m => SameCtl m₀ m ∧ P m.kernel) (mem a)
      fun x m => SameCtl m₀ m ∧ Q x m.kernel :=
  triple_lift (p := act a) running (all_perform via) triple

theorem triple_look {P : Machine → Prop} :
    (call t inv exact).Triple () P look fun m' m => m' = m ∧ P m :=
  Triple.atOnce fun _ holds _ pre => ⟨holds, fun _ => ⟨rfl, pre⟩⟩

theorem triple_ctl {P : Machine → Prop} {Q : Unit → Machine → Prop} {f : Ctl → Ctl}
    (keeps : ∀ c, (f c).running = c.running) (does : ∀ m, P m → Q () (m.setCtl (f m.toCtl))) :
    (call t inv exact).Triple () P (ctl f) Q :=
  Triple.atOnce fun m holds _ pre => ⟨⟨(keeps m.toCtl).trans holds.1, holds.2⟩, fun _ => does m pre⟩

end

/-! ### Assertions about memory -/

/-- An assertion about memory; processes and threads are those of `s₀`. -/
def OnMem (s₀ : Kernel) (R : Mem → Prop) (s : Kernel) : Prop := SameProcs s₀ s ∧ R s.mem

variable {last exact : Prop} {t : Nat} {s₀ : Kernel}

/-- Thread `t`, which stays alive if `last` says so. -/
abbrev free₀ (last exact : Prop) (t : Nat) : Sys Kernel Unit Act Act.Result :=
  solo t (fun s => last → Kernel.alive t s = true) exact

/-- The invariant of a call that its thread survives. -/
abbrev stays (t : Nat) (s : Kernel) : Prop := True → Kernel.alive t s = true

theorem lives {t : Nat} (m : Machine) (inv : m.running = t ∧ stays t m.kernel) : m.live = true := by
  rw [Machine.live, inv.1]
  exact inv.2 trivial

theorem Machine.Frees.admitted {α : Type} {m : Machine} {p : KProgram α} (frees : m.Frees p) :
    p.Meets Machine.exec Machine.live (fun a m => True → KFrees a m) m :=
  frees.mono fun _ _ h _ => h

theorem boot_wf {physFrames : Nat} (fits : physFrames ≤ virtualAddrEnd / pageSize)
    {oracle : Nat → Bool} {phys : Nat → UInt8} {ctl : Ctl} {m : Machine}
    (started : boot physFrames oracle phys ctl = some m) : m.kernel.mem.vm.abs.Wf := by
  obtain ⟨mem, inv, -, -, eq⟩ := Memory.boot_spec fits (boot_spec started).1
  rw [eq]
  exact inv.wf

/-- One action on memory. -/
theorem triple_mem (a : Act) (onMemory : OnMemory a) {P : Mem → Prop} {Q : a.Result → Mem → Prop}
    (does : ∀ s, (exact → Frees a s) → P s.mem → Q (Kernel.exec t a s).2 (Kernel.exec t a s).1.mem) :
    (free₀ last exact t).Triple () (OnMem s₀ P) (act a) fun r => OnMem s₀ (Q r) := by
  refine Triple.atOnce fun s alive admitted pre => ?_
  have same := sameProcs_exec onMemory t s
  refine ⟨fun h => ?_, fun _ => ⟨pre.1.trans same, does s admitted pre.2⟩⟩
  rw [Kernel.alive, same.thread]
  exact alive h

end OsKernel.Syscall
