/-
`remove_pages` undoes `new_pages`, if it finds the record.

`World` is a machine with the allocations that the threads of one process have made and
not removed yet, as the results of their calls tell. In every run they are the records of
the process (`World.Good.step`), which `remove_pages` searches from the lowest one; it stops at
the next record unless that lies below the base it looks for, so only the lowest
allocation is ever found. A frame goes back to the pool if there is a node for it.
`remove_undoes_iff` says when a call keeps its promise, in the state that any run reaches.
-/

import OsKernel.Syscall.Runs

namespace OsKernel.Syscall

open OsKernel.Vm OsKernel.Memory Prog Sys
open OsKernel.Run

inductive PageCall where
  | newPages (base : Nat) (len : Int)
  | removePages (base : Nat)

/-- The machine, and the allocations of a process that are not removed yet. -/
structure World where
  machine : Machine
  made : List (Nat × Int) := []

/-- A thread of process `p` makes a call, and goes by its result. -/
def World.step (physFrames p : Nat) (w : World) (i : Nat × PageCall) : World :=
  if w.machine.kernel.thread i.1 = some p then
    match i.2 with
    | .newPages base len =>
        let out := (w.machine.switchTo i.1).eval
          (Syscall.newPages (base % virtualAddrEnd) len physFrames)
        { machine := out.1
          made := if out.2 = some true then (base % virtualAddrEnd, len) :: w.made else w.made }
    | .removePages base =>
        let out := (w.machine.switchTo i.1).eval (Syscall.removePages (base % virtualAddrEnd))
        { machine := out.1
          made := if out.2 = some .removed then w.made.filter fun r => r.1 ≠ base % virtualAddrEnd
            else w.made }
  else w

/-- The allocation `r` of process `p`, which has directory `d`, is undone: its pages are
unmapped and unavailable, their frames are in the pool, its record is gone, and nothing
else has changed. -/
structure Undone (p d : Nat) (r : Nat × Int) (s s' : Kernel) : Prop where
  pages : ∀ page, InRecords [r] page →
    s'.mem.state d page = some (.unmapped .unavailable)
  frames : ∀ f, f ∈ s'.mem.vm.allocList ↔ f ∈ s.mem.vm.allocList ∨
    ∃ page, InRecords [r] page ∧ s.mem.vm.abs.Maps d page f
  record : ∃ pr before after, s.procs p = some pr ∧ pr.allocs = before ++ r :: after ∧
    s'.procs =
      Function.update s.procs p (some { pr with allocs := before ++ after })
  rest : ∀ page, ¬ InRecords [r] page → s'.mem.state d page = s.mem.state d page
  others : ∀ e, e ≠ d → s'.mem.vm.dirs e = s.mem.vm.dirs e
  contents : s'.mem.phys = s.mem.phys

/-- `remove_pages` of thread `t` returns, with 0 if and only if the base is the one of an
allocation that is not removed yet, and then it undoes that. -/
def RemovesRight (p t base : Nat) (w : World) : Prop :=
  ∃ m' r, (w.machine.switchTo t).eval (Syscall.removePages base) = (m', some r) ∧
    (r = .removed ↔ ∃ a ∈ w.made, a.1 = base) ∧
    (r = .removed → ∀ a ∈ w.made, a.1 = base → ∃ pr, w.machine.kernel.procs p = some pr ∧
      Undone p pr.dir a w.machine.kernel m'.kernel)

/-- An allocation with this base is the lowest one, and `free_frame` gets a node for each
of its frames. -/
def Lowest (base : Nat) (w : World) : Prop :=
  ∀ a ∈ w.made, a.1 = base → (∀ b ∈ w.made, base ≤ b.1) ∧
    ∀ k : Nat, (k * pageSize : Int) < a.2 → w.machine.kernel.mem.vm.oracle k = true

/-- The allocations are the records of the process, and these are right. -/
structure World.Good (p : Nat) (pr : Proc) (w : World) : Prop where
  wf : w.machine.kernel.mem.vm.abs.Wf
  proc : w.machine.kernel.procs p = some pr
  home : w.machine.kernel.thread w.machine.running = some p → w.machine.cr3 = pr.dir
  recorded : Recorded w.machine.kernel.mem pr.dir pr.allocs
  made : ∀ r, r ∈ w.made ↔ r ∈ pr.allocs

section
variable {physFrames p t : Nat} {pr : Proc} {w : World}

/-- A thread of the process runs in the directory of the process. -/
theorem World.Good.switch (good : w.Good p pr) (thread : w.machine.kernel.thread t = some p) :
    let m := w.machine.switchTo t
    m.kernel = w.machine.kernel ∧ m.running = t ∧ m.cr3 = pr.dir ∧ m.live = true := by
  have kernel := switchTo_kernel w.machine t
  have runs : (w.machine.switchTo t).running = t ∧ (w.machine.switchTo t).cr3 = pr.dir := by
    unfold Machine.switchTo
    split
    · rename_i same
      exact ⟨same, good.home (same ▸ thread)⟩
    · rw [Kernel.proc, thread, Option.bind_some, good.proc]
      exact ⟨rfl, rfl⟩
  refine ⟨kernel, runs.1, runs.2, ?_⟩
  rw [Machine.live, runs.1, kernel, Kernel.alive, thread]
  rfl

/-- What a triple says of a call of the process. -/
theorem World.Good.ends {α : Type} (good : w.Good p pr)
    (thread : w.machine.kernel.thread t = some p) {prog : KProgram α} {Q : α → Machine → Prop}
    (triple : (call (w.machine.switchTo t).running (stays (w.machine.switchTo t).running)
      False).Triple () (Eq (w.machine.switchTo t)) prog Q) :
    ∃ m' x, (w.machine.switchTo t).eval prog = (m', some x) ∧ Q x m' := by
  obtain ⟨-, -, -, live⟩ := good.switch thread
  obtain ⟨m', x, ran, -, post⟩ := triple.ends lives ⟨rfl, fun _ => live⟩ rfl
    (meets_of_forall (fun _ _ no => no.elim) _ _)
  exact ⟨m', x, ran, post⟩

theorem World.Good.newPages (good : w.Good p pr) (thread : w.machine.kernel.thread t = some p)
    (base : Nat) (len : Int) :
    ∃ pr', (w.step physFrames p (t, .newPages base len)).Good p pr' ∧
      (w.step physFrames p (t, .newPages base len)).machine.kernel.thread =
        w.machine.kernel.thread := by
  obtain ⟨kernel, running, cr3, -⟩ := good.switch thread
  have low : base % virtualAddrEnd < virtualAddrEnd := Nat.mod_lt _ (by decide)
  obtain ⟨m', ok, ran, post⟩ := good.ends thread
    (triple_newPages (kernel ▸ good.wf) (base % virtualAddrEnd) len physFrames)
  simp only [World.step, if_pos thread, ran]
  cases ok with
  | false =>
      obtain ⟨ctl, procs, k, taken⟩ := post
      refine ⟨pr, ⟨taken.apart.wf, ?_, fun _ => ?_, ?_, good.made⟩, ?_⟩
      · rw [procs.procs, kernel, good.proc]
      · rw [ctl, cr3]
      · have recorded := good.recorded
        refine ⟨recorded.toAscending, fun page here => (recorded.mapped page here).congr ?_⟩
        rw [← cr3, taken.state page, kernel]
      · rw [procs.thread, kernel]
  | true =>
      obtain ⟨count, granted⟩ := post
      obtain ⟨q, qr, thread', proc, procs⟩ := granted.procs
      rw [running, kernel, thread, Option.some.injEq] at thread'
      subst thread'
      rw [kernel, good.proc, Option.some.injEq] at proc
      subst proc
      have recorded := @Granted.recorded _ _ _ _ _ _ pr.allocs granted low (by
        rw [kernel, cr3]
        exact good.recorded)
      rw [cr3] at recorded
      refine ⟨{ pr with allocs := insertAllocation (base % virtualAddrEnd) len pr.allocs },
        ⟨granted.taken.apart.wf, ?_, fun _ => ?_, recorded, fun r => ?_⟩, ?_⟩
      · rw [procs, Function.update_self]
      · rw [granted.ctl, cr3]
      · rw [mem_insertAllocation]
        simp only [↓reduceIte, List.mem_cons, good.made]
      · rw [granted.thread, kernel]

/-- How `remove_pages` of the process ends. -/
theorem World.Good.remove (good : w.Good p pr) (thread : w.machine.kernel.thread t = some p)
    (base : Nat) : ∃ m' r,
      (w.machine.switchTo t).eval (Syscall.removePages base) = (m', some r) ∧
        RemoveEnds base p pr (w.machine.switchTo t) r m' := by
  obtain ⟨kernel, running, cr3, -⟩ := good.switch thread
  refine good.ends thread (triple_removePages (kernel ▸ good.wf) ?_ ?_ ?_ base)
  · rw [kernel, running, thread]
  · rw [kernel, good.proc]
  · rw [kernel, cr3]
    exact good.recorded

/-- The other records have other bases. -/
theorem Ascending.ne_head {r : Nat × Int} {rest : List (Nat × Int)} (h : Ascending (r :: rest))
    {a : Nat × Int} (ha : a ∈ rest) : r.1 < a.1 :=
  (List.pairwise_cons.mp h.strict).1 a ha

theorem World.Good.removePages (good : w.Good p pr) (thread : w.machine.kernel.thread t = some p)
    (base : Nat) :
    ∃ pr', (w.step physFrames p (t, .removePages base)).Good p pr' ∧
      (w.step physFrames p (t, .removePages base)).machine.kernel.thread =
        w.machine.kernel.thread := by
  obtain ⟨kernel, running, cr3, -⟩ := good.switch thread
  obtain ⟨m', r, ran, post⟩ := good.remove thread (base % virtualAddrEnd)
  simp only [World.step, if_pos thread, ran]
  cases r with
  | notFound =>
      obtain ⟨rfl, -⟩ := post
      refine ⟨pr, ⟨kernel ▸ good.wf, ?_, fun _ => cr3, ?_, good.made⟩, ?_⟩
      · rw [kernel, good.proc]
      · rw [kernel]
        exact good.recorded
      · rw [kernel]
  | stuck => exact post.elim
  | removed =>
      obtain ⟨count, rest, removed⟩ := post
      have recorded := removed.recorded (by
        rw [kernel, cr3]
        exact good.recorded)
      rw [cr3] at recorded
      refine ⟨{ pr with allocs := rest }, ⟨removed.gone.apart.wf, ?_, fun _ => ?_, recorded,
        fun r => ?_⟩, ?_⟩
      · rw [removed.procs, Function.update_self]
      · rw [removed.ctl, cr3]
      · have ascending := good.recorded.toAscending
        rw [removed.head] at ascending
        simp only [↓reduceIte, List.mem_filter, good.made, removed.head, List.mem_cons,
          decide_eq_true_eq]
        constructor
        · rintro ⟨rfl | mem, ne⟩
          · exact absurd rfl ne
          · exact mem
        · intro mem
          exact ⟨.inr mem, (Nat.ne_of_lt (ascending.ne_head mem)).symm⟩
      · rw [removed.thread, kernel]

/-- A call of any thread. -/
theorem World.Good.step (good : w.Good p pr) (i : Nat × PageCall) :
    ∃ pr', (w.step physFrames p i).Good p pr' ∧
      (w.step physFrames p i).machine.kernel.thread = w.machine.kernel.thread := by
  obtain ⟨t, call⟩ := i
  by_cases thread : w.machine.kernel.thread t = some p
  · cases call with
    | newPages base len => exact good.newPages thread base len
    | removePages base => exact good.removePages thread base
  · simp only [World.step, if_neg thread]
    exact ⟨pr, good, trivial⟩

/-! ### When the call is right -/

theorem inRecords_singleton {base count page : Nat} :
    InRecords [(base, (count * pageSize : Int))] page ↔ ∃ k < count, page = nthPage base k := by
  have below : ∀ k : Nat, (k * pageSize : Int) < count * pageSize ↔ k < count := fun k => by
    simp only [pageSize]
    omega
  constructor
  · rintro ⟨r, hr, k, lt, rfl⟩
    rw [List.mem_singleton] at hr
    subst hr
    exact ⟨k, (below k).mp lt, rfl⟩
  · rintro ⟨k, lt, rfl⟩
    exact ⟨_, List.mem_singleton_self _, k, (below k).mpr lt, rfl⟩

/-- The frames of the pages that are removed are in the pool just where `free_frame` got a
node for each. -/
theorem frames_iff {d base count : Nat} {m m' : Mem} (wf : m.vm.abs.Wf)
    (users : ∀ k < count, UserPage (nthPage base k))
    (own : ∀ k < count, Private m d (nthPage base k))
    (injective : ∀ j < count, ∀ k < count, nthPage base j = nthPage base k → j = k)
    (gone : Gone d base count m m') :
    (∀ f, f ∈ m'.vm.allocList ↔ f ∈ m.vm.allocList ∨
      ∃ page, InRecords [(base, (count * pageSize : Int))] page ∧ m.vm.abs.Maps d page f) ↔
      ∀ k < count, m.vm.oracle k = true := by
  constructor
  · intro frames k lt
    obtain ⟨pte, mapped, -, -, nz⟩ := own k lt
    obtain ⟨space, hd, state⟩ := Option.map_eq_some_iff.mp mapped
    have maps := maps_of_state hd (users k lt) state
    have freed := (frames _).mpr (.inr ⟨_, inRecords_singleton.mpr ⟨k, lt, rfl⟩, maps⟩)
    rcases (gone.pool _).mp freed with pool | ⟨j, lt', node, maps'⟩
    · exact absurd pool (wf.unmapped d _ _ maps nz)
    · -- the frame is the one of this page only
      have same := (wf.injective d d _ _ _ maps maps' nz).2
      rwa [injective k lt j lt' same]
  · intro nodes f
    rw [gone.pool f]
    refine or_congr_right ⟨?_, ?_⟩
    · rintro ⟨k, lt, -, maps⟩
      exact ⟨_, inRecords_singleton.mpr ⟨k, lt, rfl⟩, maps⟩
    · rintro ⟨page, here, maps⟩
      obtain ⟨k, lt, rfl⟩ := inRecords_singleton.mp here
      exact ⟨k, lt, nodes k lt, maps⟩

/-- The record at the head of the list is removed. -/
theorem Removed.undone {base count d : Nat} {rest : List (Nat × Int)} {m m' : Machine}
    (removed : Removed base count p pr rest m m') (cr3 : m.cr3 = d)
    (proc : m.kernel.procs p = some pr)
    (frames : ∀ f, f ∈ m'.kernel.mem.vm.allocList ↔ f ∈ m.kernel.mem.vm.allocList ∨
      ∃ page, InRecords [(base, (count * pageSize : Int))] page ∧
        m.kernel.mem.vm.abs.Maps d page f) :
    Undone p d (base, (count * pageSize : Int)) m.kernel m'.kernel := by
  subst cr3
  have gone := removed.gone
  refine ⟨fun page here => ?_, frames, ⟨pr, [], rest, proc, removed.head, removed.procs⟩,
    fun page out => gone.rest page fun k lt here => out ?_, gone.apart.dirs, gone.phys⟩
  · obtain ⟨k, lt, rfl⟩ := inRecords_singleton.mp here
    exact gone.gone k lt
  · exact inRecords_singleton.mpr ⟨k, lt, here⟩

theorem World.Good.removesRight_iff (good : w.Good p pr)
    (thread : w.machine.kernel.thread t = some p) (base : Nat) :
    RemovesRight p t base w ↔ Lowest base w := by
  obtain ⟨kernel, running, cr3, -⟩ := good.switch thread
  obtain ⟨m', r, ran, post⟩ := good.remove thread base
  have ascending := good.recorded.toAscending
  cases r with
  | stuck => exact post.elim
  | notFound =>
      obtain ⟨-, absent⟩ := post
      constructor
      · rintro ⟨m'', r, ran', right, -⟩ a ha same
        rw [ran, Prod.mk.injEq, Option.some.injEq] at ran'
        exact absurd (right.mpr ⟨a, ha, same⟩) (by rw [← ran'.2]; simp)
      · intro lowest
        refine ⟨m', .notFound, ran, ⟨fun no => (by cases no), ?_⟩, fun no => (by cases no)⟩
        rintro ⟨a, ha, same⟩
        -- the lowest record is the head of the list, which was not found
        have low := (lowest a ha same).1
        have ha' := (good.made a).mp ha
        cases allocs : pr.allocs with
        | nil =>
            rw [allocs] at ha'
            cases ha'
        | cons b rest =>
            rw [allocs] at ha' ascending
            have first := low b ((good.made b).mpr (allocs ▸ List.mem_cons_self))
            rcases List.mem_cons.mp ha' with rfl | later
            · exact absurd (by rw [allocs, ← same]) (absent a.2 rest)
            · have := ascending.ne_head later
              omega
  | removed =>
      obtain ⟨count, rest, removed⟩ := post
      have here : (base, (count * pageSize : Int)) ∈ pr.allocs := by simp [removed.head]
      have head := removed.head
      -- it is the only one with this base, and the lowest
      have only : ∀ a ∈ w.made, a.1 = base → a = (base, (count * pageSize : Int)) := by
        intro a ha same
        have ha' := (good.made a).mp ha
        rw [head] at ha' ascending
        rcases List.mem_cons.mp ha' with eq | later
        · exact eq
        · exact absurd same (Nat.ne_of_lt (ascending.ne_head later)).symm
      have low : ∀ b ∈ w.made, base ≤ b.1 := by
        intro b hb
        have hb' := (good.made b).mp hb
        rw [head] at hb' ascending
        rcases List.mem_cons.mp hb' with rfl | later
        · exact le_rfl
        · exact Nat.le_of_lt (ascending.ne_head later)
      obtain ⟨users, own, injective⟩ := good.recorded.own here
      have gone := removed.gone
      rw [kernel, cr3] at gone
      have frames := frames_iff good.wf users own injective gone
      have nodes : Lowest base w ↔ ∀ k < count, w.machine.kernel.mem.vm.oracle k = true := by
        constructor
        · intro lowest k lt
          refine (lowest _ ((good.made _).mpr here) rfl).2 k ?_
          simp only [pageSize]
          omega
        · intro all a ha same
          refine ⟨low, fun k lt => all k ?_⟩
          rw [only a ha same] at lt
          simp only [pageSize] at lt
          omega
      rw [nodes, ← frames]
      constructor
      · rintro ⟨m'', r, ran', -, undone⟩
        rw [ran, Prod.mk.injEq, Option.some.injEq] at ran'
        obtain ⟨rfl, rfl⟩ := ran'
        obtain ⟨pr', proc, undone⟩ := undone rfl _ ((good.made _).mpr here) rfl
        rw [good.proc, Option.some.injEq] at proc
        subst proc
        exact undone.frames
      · intro pool
        refine ⟨m', .removed, ran, ⟨fun _ => ⟨_, (good.made _).mpr here, rfl⟩, fun _ => rfl⟩,
          fun _ a ha same => ⟨pr, good.proc, ?_⟩⟩
        rw [only a ha same, ← kernel]
        refine removed.undone cr3 (kernel ▸ good.proc) ?_
        rw [kernel]
        exact pool

/-- In every run of `new_pages` and `remove_pages` of the threads of a process that starts
without an allocation, `remove_pages` keeps its promise just where the base is not the one
of an allocation that is not removed yet, or that is the lowest one and `free_frame` gets
its nodes. -/
theorem remove_undoes_iff {m : Machine} (wf : m.kernel.mem.vm.abs.Wf)
    (proc : m.kernel.procs p = some pr) (none : pr.allocs = [])
    (home : m.kernel.thread m.running = some p → m.cr3 = pr.dir)
    (thread : m.kernel.thread t = some p) (calls : List (Nat × PageCall)) (base : Nat) :
    RemovesRight p t base (run (World.step physFrames p) { machine := m } calls) ↔
      Lowest base (run (World.step physFrames p) { machine := m } calls) := by
  have start : World.Good p pr { machine := m } :=
    ⟨wf, proc, home, by rw [none]; exact .nil _ _, fun r => by simp [none]⟩
  obtain ⟨⟨pr', good⟩, threads⟩ := run_invariant
    (P := fun w : World => (∃ pr', w.Good p pr') ∧ w.machine.kernel.thread = m.kernel.thread)
    (fun w i ⟨⟨pr', good⟩, same⟩ => by
      obtain ⟨pr'', good', same'⟩ := @World.Good.step physFrames _ _ _ good i
      exact ⟨⟨pr'', good'⟩, same'.trans same⟩) ⟨⟨pr, start⟩, rfl⟩ calls
  exact good.removesRight_iff (threads ▸ thread) base

/-- The first process, after one call. -/
theorem remove_undoes_iff_one : ∃ m, boot 4100 (fun _ => true) (fun _ => 255) emptyCtl = some m ∧
    (RemovesRight 0 0 userMemStart
        (run (World.step 4100 0) { machine := m } [(0, .newPages userMemStart 8192)]) ↔
      Lowest userMemStart
        (run (World.step 4100 0) { machine := m } [(0, .newPages userMemStart 8192)])) := by
  have ran : (boot 4100 (fun _ => true) (fun _ => 255) emptyCtl).map
      (fun m => m.kernel.thread 0) = some (some 0) := by decide +kernel
  obtain ⟨m, started, thread⟩ := Option.map_eq_some_iff.mp ran
  obtain ⟨booted, running, -, -, pr, proc, cr3⟩ := boot_spec started
  rw [Kernel.proc, thread, Option.bind_some] at proc
  exact ⟨m, started, remove_undoes_iff (boot_wf (by decide) started) proc (boot_first booted proc).2
    (fun _ => cr3) thread _ userMemStart⟩

/-- Two allocations, the second above the first. -/
def twoAllocations : List (Nat × PageCall) :=
  [(0, .newPages userMemStart 4096), (0, .newPages (userMemStart + 4096) 4096)]

/-- The second allocation is not found. -/
theorem second_not_removed : ∃ m, boot 4100 (fun _ => true) (fun _ => 255) emptyCtl = some m ∧
    ¬ RemovesRight 0 0 (userMemStart + 4096)
      (run (World.step 4100 0) { machine := m } twoAllocations) := by
  have ran : (boot 4100 (fun _ => true) (fun _ => 255) emptyCtl).map (fun m =>
      let w := run (World.step 4100 0) { machine := m } twoAllocations
      (w.made, ((w.machine.switchTo 0).eval (Syscall.removePages (userMemStart + 4096))).2)) =
        some ([(userMemStart + 4096, 4096), (userMemStart, 4096)], some .notFound) := by
    decide +kernel
  obtain ⟨m, started, eq⟩ := Option.map_eq_some_iff.mp ran
  simp only [Prod.mk.injEq] at eq
  obtain ⟨made, result⟩ := eq
  refine ⟨m, started, ?_⟩
  rintro ⟨m', r, ran', right, -⟩
  rw [ran', Option.some.injEq] at result
  have returns := right.mpr ⟨(userMemStart + 4096, 4096), by rw [made]; simp, rfl⟩
  rw [result] at returns
  cases returns

end

end OsKernel.Syscall
