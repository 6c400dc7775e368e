/-
What `load_executable` does around the image.

It makes a directory, copies the arguments to the kernel heap, and puts the new directory
into `%cr3`; from there on it does what the image asks for in that directory, and at the
end it keeps the one directory or the other. `loadExecutable_runs` says this once: the call
fails before it comes to the image, or its result and its stores are those of the image,
loaded into a directory in which nothing is mapped yet.
-/

import OsKernel.Loader.Sections
import OsKernel.Loader.Supply
import OsKernel.Syscall.Exec
import OsKernel.Vm.UserTables

namespace OsKernel.Loader

open OsKernel.Vm OsKernel.Memory OsKernel.Syscall Prog

/-- The plan of a directory that was just made. -/
def blank : Plan := ⟨fun _ => .unmapped .unavailable, fun _ => 0⟩

theorem closed_blank : Closed blank := fun _ _ => rfl

/-- Every byte of user memory that the action stores for the loader lies where `P` says. -/
def Puts (P : Nat → Prop) : Act → Kernel → Prop
  | .place d v b, s => (s.kstore d (v % virtualAddrEnd) b).2 = true → P (v % virtualAddrEnd)
  | .clearPage d v, s => (s.mem.frameAt d v).isSome = true →
      ∀ w, pageOf w = pageOf v → w < virtualAddrEnd → P w
  | .store .., _ | .copyOut .., _ | .copyPage .., _ => False
  | _, _ => True

/-- Every byte that the call stores, through `%cr3`, lies where `P` says. -/
def Places (P : Nat → Prop) : KAct → Machine → Prop
  | .mem (.place _ v b), m => Puts P (.place m.cr3 v b) m.kernel
  | .mem (.clearPage _ v), m => Puts P (.clearPage m.cr3 v) m.kernel
  | .mem a, m => Puts P a m.kernel
  | _, _ => True

section
variable {d t : Nat} {z : Nat → UInt8} {P : Nat → Prop} {plan : Plan} {α : Type}

theorem Writes.puts {a : Act} {s : Kernel} (h : Writes P a s) : Puts P a s := by
  cases a with
  | place d v b => exact fun _ => h
  | clearPage d v => exact fun _ => h
  | store | copyOut | copyPage => exact h
  | _ => trivial

theorem Writes.onMemory {a : Act} {s : Kernel} (h : Writes P a s) : OnMemory a := by
  cases a with
  | place | clearPage => trivial
  | store | copyOut | copyPage => exact h.elim
  | _ => exact h

/-- What is checked for its stores leaves processes and threads alone. -/
theorem Writes.sameProcs {a : Act} {r s : Kernel} (h : Writes P a s) (same : SameProcs r s) :
    SameProcs r (Kernel.exec t a s).1 :=
  same.trans (sameProcs_exec h.onMemory t s)

theorem SameProcs.alive {s s' : Kernel} (same : SameProcs s s') (start : Kernel.alive t s = true) :
    Kernel.alive t s' = true := by
  rw [Kernel.alive, same.thread]
  exact start

/-- A program that fills a directory comes to its end. -/
theorem Fills.run {p : Program α} {Q : α → Plan → Prop} (h : Fills d t z P plan p Q) {s : Kernel}
    (fits : Fits d z s.mem plan) (alive : Kernel.alive t s = true) :
    ∃ s' x plan', s.eval t p = (s', some x) ∧ Fits d z s'.mem plan' ∧ Q x plan' ∧ SameProcs s s' ∧
      p.Meets (Kernel.exec t) (Kernel.alive t) (Puts P) s := by
  obtain ⟨meets, post⟩ := h s fits
  obtain ⟨s', x, ran, -⟩ := meets.ends
    (fun a s ok start => SameProcs.alive (ok.sameProcs (.refl s)) start) alive
  have same := meets.keeps (fun a s₁ ok same => ok.sameProcs (r := s) (t := t) same) (.refl s)
  obtain ⟨plan', fits', q⟩ := post x (by rw [ran])
  rw [ran] at fits' same
  exact ⟨s', x, plan', ran, fits', q, same, meets.mono fun a s ok => ok.puts⟩

theorem fills_mallocs (sizes : List Nat) : Fills d t z P plan (mallocs sizes) fun ok plan' =>
    plan' = plan ∧ (ok = true → ∀ n ∈ sizes, n < userMemStart) := by
  induction sizes with
  | nil => exact .ret ⟨rfl, fun _ n mem => by cases mem⟩
  | cons size sizes ih =>
      refine Fills.bind (Q := fun ok plan' => plan' = plan ∧ (ok = true → size < userMemStart))
        (Fills.act (fun _ => trivial) fun s fits => ?_) ?_
      · simp only [Kernel.exec]
        split
        · exact ⟨plan, fits, rfl, fun h => by cases h⟩
        · rename_i small
          have same : Same d s.mem (s.mem.withVm s.mem.vm.malloc.2) :=
            ⟨within_malloc fits.wf d, fun _ => rfl, rfl⟩
          exact ⟨plan, fits.same same, rfl, fun _ => Nat.lt_of_not_le small⟩
      rintro ok _ ⟨rfl, first⟩
      cases ok with
      | false => exact .ret ⟨rfl, fun h => by cases h⟩
      | true =>
          refine Fills.conseq ih fun ok plan' h => ⟨h.1, fun go n mem => ?_⟩
          rcases List.mem_cons.mp mem with rfl | mem
          · exact first rfl
          · exact h.2 go n mem

theorem short_of_sizes {name : List UInt8} {args : List (List UInt8)}
    (small : ∀ n ∈ copySizes name args, n < userMemStart) : Short args := by
  refine ⟨?_, fun arg mem => small _ ?_⟩
  · by_cases none : args = []
    · subst none
      decide
    · exact small _ (by simp [copySizes, none])
  · exact List.mem_append_right _ (List.mem_map.mpr ⟨arg, mem, rfl⟩)

/-- Nothing is mapped in a directory that was just made. -/
theorem fits_blank {vm₀ : VmState} {m : Mem} (made : Constructed d vm₀ m.vm) :
    Fits d (fun off => m.phys (zeroFrame + off)) m blank := by
  have state : ∀ q, UserPage q → m.state d q = some (.unmapped .unavailable) := by
    intro q user
    rw [state_of_space made.space, stateOf_freshDir, if_neg (Nat.not_lt.mpr user.1)]
  refine ⟨made.wf, fun _ _ => rfl, fun q user => ?_, fun w addr => ?_, fun _ _ _ => rfl⟩
  · rw [state q user]
    rfl
  · rw [byteAt_unmapped (state _ addr.page)]
    rfl

end

/-! ### The call -/

/-- The thread that calls, in its process and its directory. -/
structure Caller (m : Machine) (p : Nat) (pr : Proc) : Prop where
  wf : m.kernel.mem.vm.abs.Wf
  live : m.live = true
  home : m.pageDirectory = m.cr3
  thread : m.kernel.thread m.running = some p
  proc : m.kernel.procs p = some pr
  orderly : m.kernel.mem.vm.Orderly
  dir : (m.kernel.mem.vm.dirs m.cr3).isSome = true

/-- The contents of the zero frame. -/
def zeros (m : Machine) (off : Nat) : UInt8 := m.kernel.mem.phys (zeroFrame + off)

/-- The kernel when `load_executable` comes to the image, in its new directory. -/
structure Starts (m : Machine) (args : List (List UInt8)) (s : Kernel) : Prop where
  alive : Kernel.alive m.running s = true
  procs : SameProcs m.kernel s
  short : Short args
  fits : Fits m.kernel.mem.vm.nextDir (zeros m) s.mem blank
  absent : m.kernel.mem.vm.dirs m.kernel.mem.vm.nextDir = none
  supplied : ∀ n, m.kernel.mem.vm.Supplied n → s.mem.vm.Supplied n

/-- The image of an executable, in the directory made for it. -/
abbrev image (m : Machine) (elf : Elf) (args : List (List UInt8)) : Program (Option Placed) :=
  loadImage m.kernel.mem.vm.nextDir elf.toImage args

/-- `load_executable` has returned 0 after the image was loaded as in `s`. -/
structure Enters (m : Machine) (p : Nat) (elf : Elf) (args : List (List UInt8)) (s : Kernel)
    (m' : Machine) : Prop where
  cr3 : m'.cr3 = m.kernel.mem.vm.nextDir
  ureg : m'.ureg = elf.ureg args
  running : m'.running = m.running
  mem : m'.kernel.mem = s.mem.withVm (destructPageDir s.mem.vm m.cr3)
  thread : m'.kernel.thread = m.kernel.thread
  procs : m'.kernel.procs =
    Function.update m.kernel.procs p (some { dir := m.kernel.mem.vm.nextDir, guest := elf.guest })

/-- The call that comes to its image at `s₁`. -/
structure Loads (m : Machine) (p : Nat) (elf : Elf) (name : List UInt8) (args : List (List UInt8))
    (s₁ : Kernel) : Prop where
  result : (m.eval (loadExecutable (some elf) name args)).2 =
    (s₁.eval m.running (image m elf args)).2.map Option.isSome
  places : ∀ P, (loadExecutable (some elf) name args).Meets Machine.exec Machine.live (Places P) m ↔
    (image m elf args).Meets (Kernel.exec m.running) (Kernel.alive m.running) (Puts P) s₁
  enters : ∀ placed, (s₁.eval m.running (image m elf args)).2 = some (some placed) →
    Enters m p elf args (s₁.eval m.running (image m elf args)).1
      (m.eval (loadExecutable (some elf) name args)).1

/-- The stores of a program of the memory model in the directory in `%cr3`. -/
theorem lift_places {α : Type} {P : Nat → Prop} {m : Machine} {p : Program α}
    (works : p.All (Works m.cr3)) :
    (lift p).Meets Machine.exec Machine.live (Places P) m ↔
      p.Meets (Kernel.exec m.running) (Kernel.alive m.running) (Puts P) m.kernel := by
  refine hoist_meets (I := SameCtl m) ((via_of_works works).mono fun _ => simulates_mem) ?_ (.refl m)
  refine (via_of_works works).mono fun a via m' ctl => ?_
  have cr3 : m'.cr3 = m.cr3 := by rw [ctl]
  refine (and_iff_left fun _ => trivial).trans ?_
  cases a with
  | place e v b =>
      cases via
      change Puts P (.place m'.cr3 v b) m'.kernel ↔ _
      rw [cr3]
  | clearPage e v =>
      cases via
      change Puts P (.clearPage m'.cr3 v) m'.kernel ↔ _
      rw [cr3]
  | _ => exact Iff.rfl

/-- The rest of a call: what it returns, and what it stores. -/
structure Leads {α : Type} (m : Machine) (q : KProgram α) (m' : Machine) (q' : KProgram α) :
    Prop where
  eval : m.eval q = m'.eval q'
  places : ∀ P, q.Meets Machine.exec Machine.live (Places P) m ↔
    q'.Meets Machine.exec Machine.live (Places P) m'

section
variable {α β : Type} {m m' m'' : Machine} {q q' q'' : KProgram α}

theorem Leads.trans (h : Leads m q m' q') (h' : Leads m' q' m'' q'') : Leads m q m'' q'' :=
  ⟨h.eval.trans h'.eval, fun P => (h.places P).trans (h'.places P)⟩

/-- A part of the call that stores nothing. -/
theorem Leads.bind {p : KProgram β} {x : β} (ran : m.eval p = (m', some x))
    (quiet : ∀ P, p.Meets Machine.exec Machine.live (Places P) m) (k : β → KProgram α) :
    Leads m (p >>= k) m' (k x) := by
  refine ⟨eval_bind_some ran k, fun P => ?_⟩
  rw [meets_bind]
  refine ⟨fun h => ?_, fun h => ⟨quiet P, fun y done => ?_⟩⟩
  · have next := h.2 x (by rw [← Machine.eval, ran])
    rwa [← Machine.eval, ran] at next
  · rw [← Machine.eval, ran] at done ⊢
    cases done
    exact h

/-- One action that stores nothing. -/
theorem leads_act {a : KAct} (quiet : ∀ P, Places P a m) (alive : (Machine.exec a m).1.live = true)
    (k : a.Result → KProgram α) :
    Leads m (perform a >>= k) (Machine.exec a m).1 (k (Machine.exec a m).2) := by
  have meets : ∀ P, (perform (R := KAct.Result) a).Meets Machine.exec Machine.live (Places P) m :=
    fun P => ⟨quiet P, fun _ => trivial⟩
  refine .bind ?_ meets k
  rw [Machine.eval, eval_perform, if_pos alive]

theorem leads_ctl (live : m.live = true) (f : Ctl → Ctl) (running : (f m.toCtl).running = m.running)
    (k : Unit → KProgram α) : Leads m (ctl f >>= k) (m.setCtl (f m.toCtl)) (k ()) := by
  refine leads_act (a := .ctl f) (fun _ => trivial) ?_ k
  change Kernel.alive (f m.toCtl).running m.kernel = true
  rw [running]
  exact live

theorem leads_setPageDirectory (live : m.live = true) (d : Nat) (k : Unit → KProgram α) :
    Leads m (setPageDirectory d >>= k) (m.setPageDirectory d) (k ()) :=
  leads_ctl live _ rfl k

theorem leads_setCr3 (live : m.live = true) (d : Nat) (k : Unit → KProgram α) :
    Leads m (setCr3 d >>= k) (m.setCr3 d) (k ()) :=
  leads_ctl live _ rfl k

end

section
variable {m m' : Machine} {p : Nat} {pr : Proc}

theorem Caller.alive (h : Caller m p pr) : Kernel.alive m.running m.kernel = true := h.live

/-- The call fails before it comes to the image, and has stored nothing. -/
def Fails (m : Machine) (q : KProgram Bool) : Prop :=
  (m.eval q).2 = some false ∧ ∀ P, q.Meets Machine.exec Machine.live (Places P) m

/-- It does so for lack of memory only, or because a string is too long for the heap. -/
structure Denied (m : Machine) (name : List UInt8) (args : List (List UInt8))
    (q : KProgram Bool) : Prop where
  fails : Fails m q
  short : ∀ n, m.kernel.mem.vm.Supplied n → ∃ size ∈ copySizes name args, userMemStart ≤ size

theorem Leads.fails {q q' : KProgram Bool} (h : Leads m q m' q') (fails : Fails m' q') :
    Fails m q :=
  ⟨by rw [h.eval, fails.1], fun P => (h.places P).mpr (fails.2 P)⟩

/-- The end of a call that gives its directory up. -/
theorem fails_destruct (live : m.live = true) (d : Nat) :
    Fails m (do mem (.destructPageDir d); pure false) :=
  Leads.fails (leads_act (a := .mem (.destructPageDir d)) (fun _ => trivial) live _)
    ⟨rfl, fun _ => trivial⟩

/-- What is done with the directory in the end. -/
def finish (m : Machine) (elf : Elf) (args : List (List UInt8)) : Option Placed → KProgram Bool
  | none => do
      setPageDirectory m.cr3
      setCr3 m.cr3
      mem (.destructPageDir m.kernel.mem.vm.nextDir)
      pure false
  | some placed => do
      ctl fun c => { c with ureg := elf.ureg args }
      mem (.newImage m.kernel.mem.vm.nextDir elf.guest placed)
      mem (.destructPageDir m.cr3)
      pure true

/-- The machine right before the image is loaded. -/
structure Inside (m : Machine) (m' : Machine) : Prop where
  cr3 : m'.cr3 = m.kernel.mem.vm.nextDir
  running : m'.running = m.running

/-- With memory at hand there is a new directory. -/
theorem supplied_constructPageDir {n : Nat} {kernel : Kernel} {r : Option Nat}
    (supplied : m.kernel.mem.vm.Supplied n)
    (made : Machine.exec (.mem .constructPageDir) m = (m.setKernel kernel, r)) :
    kernel.mem.vm.Supplied n ∧ ∃ d, r = some d := by
  obtain ⟨d, vm, eq, left⟩ := supplied.constructPageDir
  have ran : Kernel.exec m.running .constructPageDir m.kernel =
      ({ m.kernel with mem := m.kernel.mem.withVm vm,
                       owner := Function.update m.kernel.owner d (some m.running) }, some d) := by
    rw [Kernel.exec, eq]
  have kernel_eq := congrArg (fun out => out.1.kernel) made
  have result_eq := congrArg (·.2) made
  change (Kernel.exec m.running .constructPageDir m.kernel).1 = kernel at kernel_eq
  change (Kernel.exec m.running .constructPageDir m.kernel).2 = r at result_eq
  rw [ran] at kernel_eq result_eq
  exact ⟨kernel_eq ▸ left, d, result_eq.symm⟩

theorem loadExecutable_begins (caller : Caller m p pr) (elf : Elf) (name : List UInt8)
    (args : List (List UInt8)) : Denied m name args (loadExecutable (some elf) name args) ∨
      ∃ m', Starts m args m'.kernel ∧ Inside m m' ∧ Leads m (loadExecutable (some elf) name args) m'
        (lift (image m elf args) >>= finish m elf args) := by
  obtain ⟨kernel, r, made, procs, phys, cases⟩ := exec_constructPageDir caller.wf
  have live₁ : (m.setKernel kernel).live = true := SameProcs.alive procs caller.alive
  have first : ∀ k : Option Nat → KProgram Bool,
      Leads m (mem .constructPageDir >>= k) (m.setKernel kernel) (k r) := by
    intro k
    have lead := leads_act (m := m) (a := .mem .constructPageDir) (fun _ => trivial)
      (by rw [made]; exact live₁) k
    rw [made] at lead
    exact lead
  rcases cases with ⟨rfl, -⟩ | ⟨rfl, fresh⟩
  · refine .inl ⟨Leads.fails (first _) ⟨rfl, fun _ => trivial⟩, fun n supplied => ?_⟩
    obtain ⟨_, d, none⟩ := supplied_constructPageDir supplied made
    cases none
  have fits : Fits m.kernel.mem.vm.nextDir (zeros m) kernel.mem blank := by
    have fits := fits_blank fresh
    rw [phys] at fits
    exact fits
  -- the copies of the arguments
  obtain ⟨s₁, ok, _, ran, fits₁, ⟨rfl, small⟩, procs₁, -⟩ :=
    (fills_mallocs (t := m.running) (P := fun _ => True) (copySizes name args)).run fits live₁
  obtain ⟨m₂, ran₂, kernel₂, ctl₂⟩ := lift_eval (m := m.setKernel kernel)
    (via_mallocs (m.setKernel kernel).toCtl (copySizes name args))
  change m₂.kernel = (kernel.eval m.running _).1 at kernel₂
  change _ = (m₂, (kernel.eval m.running _).2) at ran₂
  rw [ran] at ran₂ kernel₂
  have second : ∀ k : Bool → KProgram Bool,
      Leads (m.setKernel kernel) (lift (mallocs (copySizes name args)) >>= k) m₂ (k ok) :=
    Leads.bind ran₂ fun P => (lift_places (works_mallocs _ _)).mpr
      (meets_of_all (all_forAll fun _ _ => all_perform fun _ => trivial) _)
  have running₂ : m₂.running = m.running := by rw [ctl₂]; rfl
  have alive₂ : Kernel.alive m.running m₂.kernel = true := by
    rw [kernel₂]
    exact SameProcs.alive procs₁ live₁
  have live₂ : m₂.live = true := by
    rw [Machine.live, running₂]
    exact alive₂
  cases ok with
  | false =>
      refine .inl ⟨((first _).trans (second _)).fails (fails_destruct live₂ _), fun n supplied => ?_⟩
      by_contra none
      simp only [not_exists, not_and, Nat.not_le] at none
      obtain ⟨-, -, no, -⟩ := (achieves_mallocs none).eval fits
        (supplied_constructPageDir supplied made).1 ran
      cases no
  | true =>
  have cr3 : m₂.cr3 = m.cr3 := by rw [ctl₂]; rfl
  refine .inr ⟨(m₂.setPageDirectory m.kernel.mem.vm.nextDir).setCr3 m.kernel.mem.vm.nextDir,
    ⟨alive₂, ?_, short_of_sizes (small rfl), ?_, fresh.absent, fun n supplied => ?_⟩,
    ⟨rfl, running₂⟩, ?_⟩
  · change SameProcs m.kernel m₂.kernel
    rw [kernel₂]
    exact procs.trans procs₁
  · change Fits _ _ m₂.kernel.mem _
    rw [kernel₂]
    exact fits₁
  · change m₂.kernel.mem.vm.Supplied n
    rw [kernel₂]
    exact ((achieves_mallocs (small rfl)).eval fits
      (supplied_constructPageDir supplied made).1 ran).1
  refine (first _).trans ((second _).trans ((leads_act (a := .look) (fun _ => trivial) live₂ _).trans
    ((leads_setPageDirectory live₂ _ _).trans
      ((leads_setCr3 (m := m₂.setPageDirectory m.kernel.mem.vm.nextDir) live₂ _ _).trans ?_))))
  have rest : ∀ k : Option Placed → KProgram Bool, k = finish m elf args →
      Leads ((m₂.setPageDirectory m.kernel.mem.vm.nextDir).setCr3 m.kernel.mem.vm.nextDir)
        (lift (image m elf args) >>= k)
        ((m₂.setPageDirectory m.kernel.mem.vm.nextDir).setCr3 m.kernel.mem.vm.nextDir)
        (lift (image m elf args) >>= finish m elf args) := by
    rintro k rfl
    exact ⟨rfl, fun _ => Iff.rfl⟩
  refine rest _ (funext fun r => ?_)
  cases r with
  | none =>
      change (setPageDirectory m₂.cr3 >>= fun _ => setCr3 m₂.cr3 >>= fun _ => _) = _
      rw [cr3]
      rfl
  | some placed =>
      change (ctl _ >>= fun _ => mem _ >>= fun _ => mem (.destructPageDir m₂.cr3) >>= fun _ => _) = _
      rw [cr3]
      rfl

/-- A program that works in one directory and comes to its end. -/
theorem sameProcs_of_works {α : Type} {d t : Nat} {q : Program α} {s s' : Kernel} {x : α}
    (works : q.All (Works d)) (wf : s.mem.vm.abs.Wf) (alive : Kernel.alive t s = true)
    (ran : s.eval t q = (s', some x)) : SameProcs s s' ∧ Kernel.alive t s' = true := by
  have triple : (solo t (fun s => Kernel.alive t s = false → True) False).Triple ()
      (Aside False t d s) q fun _ => Aside False t d s :=
    triple_aside works fun _ _ _ => trivial
  have aside := triple.eval (fun _ => trivial) alive (.refl wf)
    (meets_of_forall (fun _ _ no => no.elim) _ _)
  rw [Kernel.eval] at ran
  rw [ran] at aside
  have alive' := eval_live alive ran
  exact ⟨(aside.2 x rfl).alive alive', alive'⟩

theorem fails_finish (live : m'.live = true) (elf : Elf) (args : List (List UInt8)) :
    Fails m' (finish m elf args none) :=
  ((leads_setPageDirectory live m.cr3 _).trans
    (leads_setCr3 (m := m'.setPageDirectory m.cr3) live m.cr3 _)).fails
      (fails_destruct (m := (m'.setPageDirectory m.cr3).setCr3 m.cr3) live _)

/-- The new image is the one the process runs from now on. -/
theorem finish_some (caller : Caller m p pr) (inside : Inside m m') (live : m'.live = true)
    (procs : SameProcs m.kernel m'.kernel) (elf : Elf) (args : List (List UInt8)) (placed : Placed) :
    ∃ m'', Enters m p elf args m'.kernel m'' ∧
      Leads m' (finish m elf args (some placed)) m'' (pure true) := by
  have entered := exec_newImage (t := m.running) (d := m.kernel.mem.vm.nextDir) (s := m'.kernel)
    (by rw [procs.thread, caller.thread]) (by rw [procs.procs, caller.proc]) elf.guest placed
  rw [← inside.running] at entered
  have alive : Kernel.alive m'.running (Kernel.exec m'.running
      (.newImage m.kernel.mem.vm.nextDir elf.guest placed) m'.kernel).1 = true := by
    rw [entered]
    exact live
  let m₁ := m'.setCtl { m'.toCtl with ureg := elf.ureg args }
  let m₂ := (Machine.exec (.mem (.newImage m.kernel.mem.vm.nextDir elf.guest placed)) m₁).1
  let m₃ := (Machine.exec (.mem (.destructPageDir m.cr3)) m₂).1
  have live₂ : m₂.live = true := alive
  have live₃ : m₃.live = true := alive
  have kernel₂ : m₂.kernel = _ := entered
  refine ⟨m₃, ⟨inside.cr3, rfl, inside.running, ?_, ?_, ?_⟩, (leads_ctl live _ rfl _).trans
    ((leads_act (m := m₁) (a := .mem (.newImage m.kernel.mem.vm.nextDir elf.guest placed))
      (fun _ => trivial) live₂ _).trans
        (leads_act (m := m₂) (a := .mem (.destructPageDir m.cr3)) (fun _ => trivial) live₃ _))⟩
  · change m₂.kernel.mem.withVm (destructPageDir m₂.kernel.mem.vm m.cr3) = _
    rw [kernel₂]
  · change m₂.kernel.thread = _
    rw [kernel₂]
    exact procs.thread
  · change m₂.kernel.procs = _
    rw [kernel₂, ← procs.procs]

theorem loadExecutable_runs (caller : Caller m p pr) (elf : Elf) (name : List UInt8)
    (args : List (List UInt8)) : Denied m name args (loadExecutable (some elf) name args) ∨
      ∃ s₁, Starts m args s₁ ∧ Loads m p elf name args s₁ := by
  rcases loadExecutable_begins caller elf name args with fails | ⟨m₁, starts, inside, leads⟩
  · exact .inl fails
  have works : (image m elf args).All (Works m₁.cr3) := by
    rw [inside.cr3]
    exact works_loadImage _ _ _
  obtain ⟨m₂, ran, kernel, ctl⟩ := lift_eval (via_of_works works)
  have places := fun P => lift_places (P := P) works
  rw [inside.running] at ran kernel places
  have running : m₂.running = m.running := by
    rw [ctl]
    exact inside.running
  -- what comes after the image stores nothing, whatever the image was
  have after : ∀ r, (m₁.kernel.eval m.running (image m elf args)).2 = some r →
      (∀ placed, r = some placed → Enters m p elf args m₂.kernel
        (m₂.eval (finish m elf args r)).1) ∧ (m₂.eval (finish m elf args r)).2 = some r.isSome ∧
      ∀ P, (finish m elf args r).Meets Machine.exec Machine.live (Places P) m₂ := by
    intro r result
    rw [result] at ran
    have eq : m₁.kernel.eval m.running (image m elf args) = (m₂.kernel, some r) := by
      rw [kernel, ← result]
    obtain ⟨procs, alive⟩ := sameProcs_of_works works starts.fits.wf starts.alive eq
    have live : m₂.live = true := by
      rw [Machine.live, running]
      exact alive
    cases r with
    | none =>
        have fails := fails_finish (m := m) live elf args
        refine ⟨fun placed h => ?_, fails.1, fails.2⟩
        cases h
    | some placed =>
        have inside₂ : Inside m m₂ := ⟨by rw [ctl]; exact inside.cr3, running⟩
        obtain ⟨m₃, enters, leads⟩ := finish_some caller inside₂ live (starts.procs.trans procs) elf
          args placed
        rw [leads.eval]
        exact ⟨fun _ _ => enters, rfl, fun P => (leads.places P).mpr trivial⟩
  refine .inr ⟨m₁.kernel, starts, ?_, fun P => ?_, fun placed result => ?_⟩
  · rw [leads.eval, Machine.eval, eval_bind, ← Machine.eval, ran]
    cases result : (m₁.kernel.eval m.running (image m elf args)).2 with
    | none => rfl
    | some r => exact (after r result).2.1
  · rw [leads.places, meets_bind, places, ← Machine.eval, ran]
    exact and_iff_left fun r result => (after r result).2.2 P
  · have enters := (after _ result).1 placed rfl
    rw [leads.eval, Machine.eval, eval_bind, ← Machine.eval, ran, result, ← kernel]
    exact enters

end

/-- What `boot` makes of the page directory manager. -/
theorem boot_vm {physFrames : Nat} (fits : physFrames ≤ virtualAddrEnd / pageSize)
    {oracle : Nat → Bool} {phys : Nat → UInt8} {s : Kernel}
    (booted : Memory.boot physFrames oracle phys = some s) : s.mem.vm.Orderly ∧
      s.thread 0 = some 0 ∧ ∃ d, s.procs 0 = some { dir := d } ∧ (s.mem.vm.dirs d).isSome = true := by
  unfold Memory.boot at booted
  have orderly := orderly_run physFrames oracle []
  cases init : initPageDirManager physFrames (.boot oracle) with
  | mk ok vm =>
  rw [Run.run, init] at orderly
  cases ok with
  | false => simp [init] at booted
  | true =>
  obtain ⟨n, fits', abs⟩ := abs_boot fits (by rw [init])
  rw [init] at abs
  have wf : vm.abs.Wf := abs ▸ wf_pool fits'
  have opened := orderly.constructPageDir
  have cases := constructPageDir_cases wf
  rcases made : constructPageDir vm with ⟨- | d, vm'⟩
  · simp [init, made] at booted
  · rw [made] at cases opened
    simp only [init, made, Option.some.injEq] at booted
    subst booted
    obtain ⟨eq, fresh⟩ := cases.resolve_left fun fails => by cases fails.1
    cases eq
    refine ⟨opened, rfl, vm.nextDir, rfl, ?_⟩
    change (vm'.dirs vm.nextDir).isSome = true
    rw [fresh.dirs, Function.update_self]
    rfl

/-- The first process can call. -/
theorem boot_caller {physFrames : Nat} (fits : physFrames ≤ virtualAddrEnd / pageSize)
    {oracle : Nat → Bool} {phys : Nat → UInt8} {ctl : Ctl} {m : Machine}
    (started : Syscall.boot physFrames oracle phys ctl = some m) : ∃ pr, Caller m 0 pr := by
  obtain ⟨booted, running, home, -, pr, proc, cr3⟩ := boot_spec started
  obtain ⟨orderly, thread, d, procs, dir⟩ := boot_vm fits booted
  rw [Kernel.proc, thread, Option.bind_some, procs, Option.some.injEq] at proc
  subst proc
  refine ⟨_, boot_wf fits started, ?_, home, ?_, procs, orderly, ?_⟩
  · rw [Machine.live, Kernel.alive, running, thread]
    rfl
  · rw [running, thread]
  · rw [cr3]
    exact dir

end OsKernel.Loader
