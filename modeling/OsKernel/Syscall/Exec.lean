/-
`load_executable`: the new program, or nothing.

The loader works in a directory of its own from the moment `%cr3` names it, so that
whatever it does there leaves every other directory alone (`Aside`), and the zero frame
that they share (`Off`). Where it fails the directory is given up and with it all that
was done; where a fault kills the thread in the middle (`Lost`), the call does not return
at all.
-/

import OsKernel.Syscall.Image
import OsKernel.Syscall.Refine

namespace OsKernel.Syscall

open OsKernel.Vm OsKernel.Memory Prog Sys

/-- Thread `t` has died in its new directory `d`. -/
structure Lost (t d : Nat) (s₀ s : Kernel) : Prop where
  wf : s.mem.vm.abs.Wf
  dirs : ∀ e, e ≠ d → s.mem.vm.dirs e = s₀.mem.vm.dirs e
  died : Died t d s₀ s

/-- The invariant of a call that its thread may not survive. -/
abbrev mortal (t d : Nat) (s₀ s : Kernel) : Prop := Kernel.alive t s = false → Lost t d s₀ s

/-- The kernel right after `load_executable` has made its directory. -/
structure Opened (d : Nat) (s₀ s : Kernel) : Prop where
  made : Constructed d s₀.mem.vm s.mem.vm
  phys : s.mem.phys = s₀.mem.phys
  procs : SameProcs s₀ s

/-- The control part, but for the cache and the directory the thread runs in. -/
def InDir (d : Nat) (m m' : Machine) : Prop :=
  m'.toCtl = { m.toCtl with tlb := m'.tlb, cr3 := d, pageDirectory := d }

/-- The control part, but for the cache and whatever directory the thread runs in. -/
def Elsewhere (m m' : Machine) : Prop :=
  m'.toCtl = { m.toCtl with tlb := m'.tlb, cr3 := m'.cr3, pageDirectory := m'.pageDirectory }

theorem InDir.elsewhere {d : Nat} {m m' : Machine} (h : InDir d m m') : Elsewhere m m' := by
  unfold Elsewhere
  rw [h]

theorem SameCtl.elsewhere {m m' : Machine} (h : SameCtl m m') : Elsewhere m m' := by
  unfold Elsewhere
  rw [h]

theorem InDir.home {m m' : Machine} (h : InDir m.cr3 m m') (home : m.pageDirectory = m.cr3) :
    SameCtl m m' := by
  unfold SameCtl
  rw [h]
  simp only [home]

/-- `load_executable` has failed. -/
structure ExecFailed (exact : Prop) (m m' : Machine) : Prop where
  ctl : SameCtl m m'
  procs : SameProcs m.kernel m'.kernel
  wf : m'.kernel.mem.vm.abs.Wf
  dirs : m'.kernel.mem.vm.dirs = m.kernel.mem.vm.dirs
  pool : exact → m'.kernel.mem.vm.allocList = m.kernel.mem.vm.allocList
  frames : exact → KeepsFrames m.kernel.mem m'.kernel.mem

/-- `load_executable` has put the new program into directory `d`. -/
structure Execed (d : Nat) (m m' : Machine) : Prop where
  running : m'.running = m.running
  cr3 : m'.cr3 = d
  pageDirectory : m'.pageDirectory = d
  absent : m.kernel.mem.vm.dirs d = none
  wf : m'.kernel.mem.vm.abs.Wf
  dirs : ∀ e, e ≠ d → e ≠ m.cr3 → m'.kernel.mem.vm.dirs e = m.kernel.mem.vm.dirs e
  thread : m'.kernel.thread = m.kernel.thread
  procs : ∃ p pr guest, m.kernel.thread m.running = some p ∧ m.kernel.procs p = some pr ∧
    m'.kernel.procs = Function.update m.kernel.procs p (some { dir := d, guest := guest })

section
variable {exact : Prop} {t d : Nat} {m : Machine} {s₁ : Kernel}

theorem Opened.lost {s₀ s : Kernel} (opened : Opened d s₀ s₁) (start : Kernel.alive t s₀ = true)
    (h : Aside exact t d s₁ s) (dead : Kernel.alive t s = false) : Lost t d s₀ s := by
  refine ⟨h.wf, fun e ne => (h.apart.dirs e ne).trans (opened.made.others ne), ?_⟩
  rcases h.procs with same | ⟨p, pr, thread, proc, rest⟩
  · rw [Kernel.alive, same.thread, opened.procs.thread] at dead
    rw [Kernel.alive, dead] at start
    cases start
  · refine ⟨p, pr, ?_, ?_, ?_⟩
    · rw [← opened.procs.thread, thread]
    · rw [← opened.procs.procs, proc]
    · rw [← opened.procs.thread, ← opened.procs.procs, ← opened.procs.threadCount]
      exact rest

/-- The state while the loader works in the directory: what it leaves alone, and what it
knows about memory. -/
def Begun (exact : Prop) (t d : Nat) (s₁ : Kernel) (R : Mem → Prop) (s : Kernel) : Prop :=
  Aside exact t d s₁ s ∧ OnMem s₁ R s

/-- A program that works in the new directory. -/
theorem triple_inside {α : Type} {p : Program α} {m₁ : Machine} {R : Mem → Prop}
    {R' : α → Mem → Prop} (live : m.live = true) (running : m₁.running = m.running)
    (opened : Opened d m.kernel s₁) (works : p.All (Works d)) (via : p.All (Via m₁.toCtl))
    (triple : (loader exact m.running).Triple () (OnMem s₁ R) p fun x => OnMem s₁ (R' x)) :
    (call m.running (mortal m.running d m.kernel) exact).Triple ()
      (fun m' => SameCtl m₁ m' ∧ Begun exact m.running d s₁ R m'.kernel) (lift p)
      fun x m' => SameCtl m₁ m' ∧ Begun exact m.running d s₁ (R' x) m'.kernel :=
  triple_lift running via <|
    (triple_aside works fun _ h => opened.lost live h).also triple fun _ _ no => no.elim

/-- The directory is given up. -/
theorem triple_abandon (opened : Opened d m.kernel s₁) :
    (call m.running (mortal m.running d m.kernel) exact).Triple ()
      (fun m' => SameCtl m m' ∧ Begun exact m.running d s₁ (ZeroKept s₁.mem) m'.kernel)
      (do mem (.destructPageDir d); pure false)
      fun ok m' => ok = false ∧ ExecFailed exact m m' := by
  refine Triple.bind (Q := fun _ => ExecFailed exact m) (Triple.whileLive (Triple.atOnce ?_)) fun _ =>
    Triple.ret fun _ _ h => ⟨rfl, h⟩
  rintro m₂ holds admitted ⟨live, ctl, h, -, kept⟩
  have alive : Kernel.alive m.running m₂.kernel = true := by
    rw [← holds.1]
    exact live
  have procs := opened.procs.trans (h.alive alive)
  refine ⟨⟨holds.1, fun dead => ?_⟩, fun _ => ⟨ctl, procs.trans ⟨rfl, rfl, rfl⟩, h.wf.destruct d,
    opened.made.destruct h.apart, fun e => opened.made.pool_destruct (h.within e) (admitted e),
    fun e n off hoff user spare => ?_⟩⟩
  · change Kernel.alive m.running m₂.kernel = false at dead
    rw [alive] at dead
    cases dead
  · change m₂.kernel.mem.phys _ = _
    rw [← opened.phys]
    by_cases zero : n * pageSize = zeroFrame
    · rw [zero, kept.zero off hoff]
    · refine h.spare e n off hoff user zero ?_
      rintro (pool | ⟨q, maps⟩)
      · exact spare (opened.made.pool ▸ pool)
      · exact opened.made.empty q _ maps

/-- How `load_executable` ends, when it does. -/
def ExecEnds (exact : Prop) (m : Machine) (ok : Bool) (m' : Machine) : Prop :=
  bif ok then Execed m.kernel.mem.vm.nextDir m m' else ExecFailed exact m m'

theorem exec_newImage {s : Kernel} {p : Nat} {pr : Proc} (thread : s.thread t = some p)
    (proc : s.procs p = some pr) (guest : Bool) (placed : Placed) :
    (Kernel.exec t (.newImage d guest placed) s).1 =
      { s with
        procs := Function.update s.procs p (some { dir := d, guest := guest })
        trace := s.trace ++ [.execed p placed]
        owner := Function.update s.owner pr.dir (some t) } := by
  simp [Kernel.exec, Kernel.proc, thread, proc]

/-- The end of a `load_executable` that has loaded its image. -/
theorem triple_enter {p : Nat} {pr : Proc} (thread : m.kernel.thread m.running = some p)
    (proc : m.kernel.procs p = some pr) (opened : Opened d m.kernel s₁) (ureg : Ureg) (guest : Bool)
    (placed : Placed) :
    (call m.running (mortal m.running d m.kernel) exact).Triple ()
      (fun m' => InDir d m m' ∧ Begun exact m.running d s₁ (ZeroKept s₁.mem) m'.kernel)
      (do
        ctl fun c => { c with ureg := ureg }
        mem (.newImage d guest placed)
        mem (.destructPageDir m.cr3)
        pure true)
      fun ok m' => ok = true ∧ Execed d m m' := by
  refine Triple.whileLive ?_
  rintro m₂ holds live ⟨-, inDir, h, -⟩
  have running : m₂.running = m.running := holds.1
  have alive : Kernel.alive m.running m₂.kernel = true := by
    rw [← running]
    exact live
  have procs := opened.procs.trans (h.alive alive)
  have stays : ∀ {s : Kernel}, s.thread = m₂.kernel.thread → mortal m.running d m.kernel s := by
    intro s same dead
    rw [Kernel.alive, same] at dead
    rw [Kernel.alive, dead] at alive
    cases alive
  refine Triple.bind (Q := fun _ m' => m' = m₂.setCtl { m₂.toCtl with ureg := ureg })
    (triple_ctl ?_ ?_) (fun _ => ?_) m₂ holds live rfl
  · exact fun _ => rfl
  · rintro _ rfl
    rfl
  refine Triple.bind (Q := fun _ m' => m'.toCtl = { m₂.toCtl with ureg := ureg } ∧
      m'.kernel.mem = m₂.kernel.mem ∧ m'.kernel.thread = m₂.kernel.thread ∧
      m'.kernel.procs = Function.update m₂.kernel.procs p (some { dir := d, guest := guest }))
    (Triple.atOnce ?_) fun _ => ?_
  · rintro _ holds - rfl
    have eq := exec_newImage (t := m₂.running) (d := d) (s := m₂.kernel)
      (by rw [running, procs.thread, thread]) (by rw [procs.procs, proc]) guest placed
    generalize hk : (Kernel.exec m₂.running (.newImage d guest placed) m₂.kernel).1 = kernel at eq
    have ran : Machine.exec (.mem (.newImage d guest placed))
        (m₂.setCtl { m₂.toCtl with ureg := ureg }) =
          ((m₂.setCtl { m₂.toCtl with ureg := ureg }).setKernel kernel, ()) := by
      rw [← hk]
      rfl
    rw [ran]
    refine ⟨⟨running, stays ?_⟩, fun _ => ⟨rfl, ?_, ?_, ?_⟩⟩ <;>
      simp only [Machine.setKernel, eq]
  refine Triple.bind (Q := fun _ => Execed d m) (Triple.atOnce ?_) fun _ =>
    Triple.ret fun _ _ h => ⟨rfl, h⟩
  rintro m₃ holds - ⟨ctl, mem, thread₃, procs₃⟩
  have dirs : ∀ e, e ≠ d → e ≠ m.cr3 →
      (destructPageDir m₃.kernel.mem.vm m.cr3).dirs e = m.kernel.mem.vm.dirs e := by
    intro e ne ne'
    rw [destructPageDir_dirs, Function.update_of_ne ne', mem, h.apart.dirs e ne, opened.made.others ne]
  refine ⟨⟨holds.1, stays thread₃⟩, fun _ => ⟨holds.1, ?_, ?_, opened.made.absent, ?_, dirs, ?_, ?_⟩⟩
  · change m₃.cr3 = d
    rw [ctl, inDir]
  · change m₃.pageDirectory = d
    rw [ctl, inDir]
  · change (destructPageDir m₃.kernel.mem.vm m.cr3).abs.Wf
    rw [mem]
    exact h.wf.destruct m.cr3
  · exact thread₃.trans procs.thread
  · exact ⟨p, pr, guest, thread, proc, procs₃.trans (by rw [procs.procs])⟩

/-- An allocation of the kernel heap. -/
theorem triple_offMallocs {S A : Nat → Prop} {m₀ : Mem} (sizes : List Nat) :
    (loader exact t).Triple () (OnMem s₁ (Off d m₀ S A)) (mallocs sizes) fun _ =>
      OnMem s₁ (Off d m₀ S A) := by
  refine Triple.conseq (Triple.forAll (I := fun _ => OnMem s₁ (Off d m₀ S A))
    (F := OnMem s₁ (Off d m₀ S A)) (fun size rest => triple_at fun m h => ?_) sizes)
    (fun _ _ h => h) fun ok s h => ?_
  · refine Triple.conseq (triple_malloc h.wf d size) (fun _ _ h => h) fun ok s same => ?_
    cases ok <;> exact ⟨same.1, h.same same.2⟩
  · cases ok <;> exact h

/-- No page of the new directory is mapped yet. -/
theorem Opened.off {s₀ : Kernel} (opened : Opened d s₀ s₁) :
    Off d s₁.mem Every (fun _ => False) s₁.mem := by
  refine ⟨⟨opened.made.wf, fun _ _ => rfl⟩, Fresh.clean fun q user => ?_⟩
  rw [state_of_space opened.made.space, stateOf_freshDir, if_neg (Nat.not_lt.mpr user.1)]

/-- The image, in the new directory. -/
theorem triple_image (live : m.live = true) (opened : Opened d m.kernel s₁) (image : Image)
    (args : List (List UInt8)) :
    (call m.running (mortal m.running d m.kernel) exact).Triple ()
      (fun m' => InDir d m m' ∧
        Begun exact m.running d s₁ (Off d s₁.mem Every fun _ => False) m'.kernel)
      (lift (loadImage d image args)) fun _ m' =>
        InDir d m m' ∧ Begun exact m.running d s₁ (ZeroKept s₁.mem) m'.kernel := by
  rintro m₂ holds alive ⟨inDir, h⟩
  have cr3 : m₂.cr3 = d := by rw [inDir]
  have works := works_loadImage d image args
  have via : (loadImage d image args).All (Via m₂.toCtl) := by
    refine via_of_works ?_
    rw [cr3]
    exact works
  refine (triple_inside live holds.1 opened works via (triple_offImage image args)
    m₂ holds alive ⟨.refl m₂, h⟩).mono ?_
  rintro _ m' ⟨ctl, h'⟩
  refine ⟨?_, h'⟩
  unfold InDir
  rw [ctl, inDir]

/-- A switch to another directory. -/
theorem triple_switch {α : Type} (m : Machine) {inv P : Kernel → Prop} {e : Nat} {k : KProgram α}
    {Q : α → Machine → Prop}
    (next : (call t inv exact).Triple () (fun m' => InDir e m m' ∧ P m'.kernel) k Q) :
    (call t inv exact).Triple () (fun m' => Elsewhere m m' ∧ P m'.kernel)
      (do setPageDirectory e; setCr3 e; k) Q := by
  refine Triple.bind (Q := fun _ m' => m'.pageDirectory = e ∧ Elsewhere m m' ∧ P m'.kernel)
    (triple_ctl ?_ ?_) fun _ => ?_
  · exact fun _ => rfl
  · rintro m' ⟨ctl, h⟩
    refine ⟨rfl, ?_, h⟩
    simp only [Elsewhere, Machine.setCtl]
    rw [ctl]
  refine Triple.bind (Q := fun _ m' => InDir e m m' ∧ P m'.kernel) (triple_ctl ?_ ?_) fun _ => next
  · exact fun _ => rfl
  · rintro m' ⟨rfl, ctl, h⟩
    refine ⟨?_, h⟩
    simp only [InDir, Machine.setCtl]
    rw [ctl]

theorem triple_loadExecutable (wf : m.kernel.mem.vm.abs.Wf) (live : m.live = true)
    (home : m.pageDirectory = m.cr3) {p : Nat} {pr : Proc}
    (thread : m.kernel.thread m.running = some p) (proc : m.kernel.procs p = some pr)
    (elf : Option Elf) (name : List UInt8) (args : List (List UInt8)) :
    (call m.running (mortal m.running m.kernel.mem.vm.nextDir m.kernel) exact).Triple () (Eq m)
      (loadExecutable elf name args) (ExecEnds exact m) := by
  have idle : ExecEnds exact m false m :=
    ⟨.refl m, .refl _, wf, rfl, fun _ => rfl, fun _ _ _ _ _ _ => rfl⟩
  cases elf with
  | none => exact Triple.ret fun _ _ h => h ▸ idle
  | some elf =>
  refine Triple.bind (Q := fun r m' => r.elim (ExecEnds exact m false m') fun d =>
      ∃ s₁, d = m.kernel.mem.vm.nextDir ∧ Opened d m.kernel s₁ ∧ SameCtl m m' ∧
        Begun exact m.running d s₁ (Off d s₁.mem Every fun _ => False) m'.kernel)
    (Triple.atOnce ?_) fun r => ?_
  · rintro m' ⟨running, mortal⟩ - rfl
    obtain ⟨kernel, r, ran, procs, phys, cases⟩ := exec_constructPageDir wf
    rw [ran]
    refine ⟨⟨running, fun dead => ?_⟩, fun _ => ?_⟩
    · change Kernel.alive m.running kernel = false at dead
      rw [Kernel.alive, procs.thread] at dead
      rw [Machine.live, Kernel.alive, dead] at live
      cases live
    rcases cases with ⟨rfl, dirs, abs⟩ | ⟨rfl, made⟩
    · exact ⟨rfl, procs, abs ▸ wf, dirs, fun _ => congrArg Spaces.free abs,
        fun _ _ _ _ _ _ => congrFun phys _⟩
    · have opened : Opened _ m.kernel kernel := ⟨made, phys, procs⟩
      exact ⟨kernel, rfl, opened, rfl, .refl made.wf, .refl _, opened.off⟩
  cases r with
  | none => exact Triple.ret fun _ _ h => h
  | some d =>
  rintro m₂ holds alive ⟨s₁, rfl, opened, ctl, h⟩
  have abandon : (call m.running (mortal m.running m.kernel.mem.vm.nextDir m.kernel) exact).Triple ()
      (fun m' => SameCtl m m' ∧
        Begun exact m.running m.kernel.mem.vm.nextDir s₁ (ZeroKept s₁.mem) m'.kernel)
      (do mem (.destructPageDir m.kernel.mem.vm.nextDir); pure false) (ExecEnds exact m) := by
    refine Triple.conseq (triple_abandon opened) (fun _ _ h => h) ?_
    rintro _ m' ⟨rfl, failed⟩
    exact failed
  refine Triple.bind (triple_inside live rfl opened (works_mallocs _ _) (via_mallocs _ _)
    (triple_offMallocs _)) (fun ok => ?_) m₂ holds alive ⟨ctl, h⟩
  cases ok with
  | false =>
      exact Triple.conseq abandon (fun _ _ h => ⟨h.1, h.2.1, h.2.2.1, h.2.2.2.toZeroKept⟩)
        fun _ _ h => h
  | true =>
  refine Triple.bind triple_look fun m₃ => ?_
  rintro m' holds alive ⟨rfl, ctl, h⟩
  have cr3 : m₃.cr3 = m.cr3 := by rw [ctl]
  rw [cr3]
  refine triple_switch m ?_ m₃ holds alive ⟨ctl.elsewhere, h⟩
  refine Triple.bind (triple_image live opened elf.toImage args) fun placed => ?_
  cases placed with
  | some placed =>
      refine Triple.conseq (triple_enter thread proc opened (elf.ureg args) elf.guest placed)
        (fun _ _ h => h) ?_
      rintro _ m' ⟨rfl, execed⟩
      exact execed
  | none =>
      exact Triple.conseq (triple_switch m (Triple.conseq abandon
        (fun m' _ h => ⟨h.1.home home, h.2⟩) fun _ _ h => h)) (fun m' _ h => ⟨h.1.elsewhere, h.2⟩)
        fun _ _ h => h

/-- `handle_exec` -/
theorem triple_handleExec (wf : m.kernel.mem.vm.abs.Wf) (live : m.live = true)
    (home : m.pageDirectory = m.cr3) {p : Nat} {pr : Proc}
    (thread : m.kernel.thread m.running = some p) (proc : m.kernel.procs p = some pr)
    (elf : Option Elf) (name : List UInt8) (args : List (List UInt8)) :
    (call m.running (mortal m.running m.kernel.mem.vm.nextDir m.kernel) exact).Triple () (Eq m)
      (exec elf name args) (ExecEnds exact m) := by
  refine Triple.bind (Q := fun _ => Eq m) (Triple.atOnce ?_) fun count => ?_
  · rintro m' holds - rfl
    exact ⟨holds, fun _ => rfl⟩
  split
  · exact triple_loadExecutable wf live home thread proc elf name args
  · refine Triple.ret fun m' _ h => ?_
    subst h
    exact ⟨.refl m, .refl _, wf, rfl, fun _ => rfl, fun _ _ _ _ _ _ => rfl⟩

/-- What a failed `exec` promises to leave alone. -/
structure NoEffect (m m' : Machine) : Prop where
  pageDirectory : m'.pageDirectory = m.pageDirectory
  cr3 : m'.cr3 = m.cr3
  ureg : m'.ureg = m.ureg
  procs : m'.kernel.procs = m.kernel.procs
  dirs : m'.kernel.mem.vm.dirs = m.kernel.mem.vm.dirs
  bytes : ∀ d w, UserAddr w → m'.kernel.mem.byteAt d w = m.kernel.mem.byteAt d w
  pool : m'.kernel.mem.vm.allocList = m.kernel.mem.vm.allocList

/-- One byte of `.text` at the start of user space. -/
def oneByte : Elf where
  txt := ⟨userMemStart, 0, 1⟩
  rodat := ⟨0, 0, 0⟩
  dat := ⟨0, 0, 0⟩
  bssStart := 0
  bssLen := 0
  file := [195]
  entry := userMemStart

end

end OsKernel.Syscall
