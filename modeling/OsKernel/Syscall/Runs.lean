/-
The records of `new_pages` over runs of calls.

`Kept` says of a kernel that the records of every process ascend and do not overlap, and
that the pages of the records of every process that has a thread are mapped to private
frames (`Recorded`). `new_pages` puts its record where no other one lies, since it takes
only pages that are not mapped (`Granted.apart`); `remove_pages` unmaps no page of another
record. Faults leave private frames alone, `fork` copies them (`Mirrors`), and a new image
starts with no record. So every run of calls keeps the records (`records_of_run`), and
`remove_pages` never fails in the middle of its loop.
-/

import OsKernel.Lib.Run
import OsKernel.Syscall.Directories
import OsKernel.Syscall.ForkCtrlBlk

namespace OsKernel.Syscall

open OsKernel.Vm OsKernel.Memory Prog Sys
open OsKernel.Run

/-! ### The records after a call -/

section
variable {exact : Prop} {m m' : Machine} {base count : Nat} {len : Int} {d : Nat} {mem mem' : Mem}

theorem ZeroPage.own {q : Nat} (h : ZeroPage mem d q) : Private mem d q := by
  obtain ⟨pte, state, us, rw, nz, -⟩ := h
  exact ⟨pte, state, us, rw, nz⟩

/-- The range of a successful `new_pages` lies in user space. -/
theorem Granted.inUser (h : Granted exact base len m m' count) (low : base < virtualAddrEnd) :
    InUser (base, len) := by
  have aligned : pageSize ∣ base := ⟨base / pageSize, by rw [Nat.mul_comm]; exact h.aligned.symm⟩
  have first := h.taken.user 0 h.pos
  refine ⟨aligned, ?_, count, h.pos, h.len_eq, ?_⟩
  · simp only [nthPage, pageOf, UserPage, kernelPageCount, userPageStart, userMemStart, pageSize,
      virtualAddrEnd] at *
    omega
  · -- a range that ran past the end would hold page 0, which is one of the kernel
    by_contra past
    obtain ⟨n, rfl⟩ := aligned
    have user := h.taken.user ((virtualAddrEnd - pageSize * n) / pageSize) (by
      simp only [pageSize, virtualAddrEnd] at *
      omega)
    simp only [nthPage, pageOf, UserPage, kernelPageCount, userPageStart, userMemStart, pageSize,
      virtualAddrEnd] at *
    omega

/-- The range of a successful `new_pages` overlaps no record: their pages are mapped. -/
theorem Granted.apart {allocs : List (Nat × Int)} (h : Granted exact base len m m' count)
    (low : base < virtualAddrEnd) (recorded : Recorded m.kernel.mem m.cr3 allocs) :
    ∀ r ∈ allocs, (r.1 : Int) + r.2 ≤ base ∨ (base : Int) + len ≤ r.1 := by
  intro r hr
  have new := h.inUser low
  have old := recorded.user r hr
  obtain ⟨c, cpos, r_len, -⟩ := old.pages
  obtain ⟨a, ha⟩ := old.aligned
  obtain ⟨b, hb⟩ := new.aligned
  by_contra overlap
  dsimp only at hb
  have pos := h.pos
  have len_eq := h.len_eq
  have crossing : a < b + count ∧ b < a + c := by
    rw [r_len, len_eq, ha, hb] at overlap
    simp only [pageSize] at overlap
    omega
  -- the first page of both ranges
  have inOld : ((max a b - a : Nat) * pageSize : Int) < r.2 := by
    rw [r_len]
    simp only [pageSize]
    omega
  have inNew : ((max a b - b : Nat) * pageSize : Int) < len := by
    rw [len_eq]
    simp only [pageSize]
    omega
  have common : nthPage base (max a b - b) = nthPage r.1 (max a b - a) := by
    rw [(old.nth inOld).1, (new.nth inNew).1, ha, hb, Nat.mul_div_cancel_left _ (by decide),
      Nat.mul_div_cancel_left _ (by decide)]
    omega
  obtain ⟨pte, mapped, -⟩ := recorded.mapped _ ⟨r, hr, _, inOld, rfl⟩
  have unmapped := h.taken.old (max a b - b) (by omega)
  rw [common, mapped] at unmapped
  cases unmapped

theorem mem_insertAllocation {r : Nat × Int} {allocs : List (Nat × Int)} :
    r ∈ insertAllocation base len allocs ↔ r = (base, len) ∨ r ∈ allocs := by
  obtain ⟨before, after, rfl, inserted⟩ := insertAllocation_split base len allocs
  rw [inserted]
  simp only [List.mem_append, List.mem_cons]
  tauto

/-- A successful `new_pages` keeps what the records say. -/
theorem Granted.recorded {allocs : List (Nat × Int)} (h : Granted exact base len m m' count)
    (low : base < virtualAddrEnd) (recorded : Recorded m.kernel.mem m.cr3 allocs) :
    Recorded m'.kernel.mem m.cr3 (insertAllocation base len allocs) := by
  refine ⟨recorded.toAscending.insert (h.inUser low) (h.apart low recorded), ?_⟩
  rintro _ ⟨r, hr, k, lt, rfl⟩
  rcases mem_insertAllocation.mp hr with rfl | hr
  · refine (h.taken.new k (Nat.zero_le k) ?_).own
    have len_eq := h.len_eq
    simp only [pageSize] at *
    omega
  · have own := recorded.mapped _ ⟨r, hr, k, lt, rfl⟩
    refine own.congr (h.taken.rest _ fun j _ lt' same => ?_)
    obtain ⟨pte, mapped, -⟩ := own
    rw [same, h.taken.old j lt'] at mapped
    cases mapped

/-- Two records of a list have no page in common. -/
theorem Ascending.apart {r s : Nat × Int} {rest : List (Nat × Int)} (h : Ascending (r :: rest))
    (hs : s ∈ rest) {j k : Nat} (hj : (j * pageSize : Int) < r.2) (hk : (k * pageSize : Int) < s.2) :
    nthPage s.1 k ≠ nthPage r.1 j := by
  have le := (List.pairwise_cons.mp h.disjoint).1 s hs
  have first := h.user r (by simp)
  have second := h.user s (List.mem_cons_of_mem r hs)
  rw [(first.nth hj).1, (second.nth hk).1]
  obtain ⟨a, ha⟩ := first.aligned
  obtain ⟨b, hb⟩ := second.aligned
  obtain ⟨c, -, r_len, -⟩ := first.pages
  rw [ha, hb, Nat.mul_div_cancel_left _ (by decide), Nat.mul_div_cancel_left _ (by decide)]
  simp only [pageSize] at *
  omega

/-- So does a successful `remove_pages`. -/
theorem Removed.recorded {p : Nat} {pr : Proc} {rest : List (Nat × Int)}
    (h : Removed base count p pr rest m m') (recorded : Recorded m.kernel.mem m.cr3 pr.allocs) :
    Recorded m'.kernel.mem m.cr3 rest := by
  rw [h.head] at recorded
  refine ⟨recorded.toAscending.tail, ?_⟩
  rintro _ ⟨r, hr, k, lt, rfl⟩
  refine (recorded.mapped _ ⟨r, List.mem_cons_of_mem _ hr, k, lt, rfl⟩).congr ?_
  refine h.gone.rest _ fun j hj => recorded.toAscending.apart hr (j := j) ?_ lt
  simp only [pageSize]
  omega

end

/-! ### Processes and their records -/

/-- The directory of a process is there, and is what its records say. -/
structure Intact (m : Mem) (pr : Proc) : Prop where
  present : Present pr.dir m
  recorded : Recorded m pr.dir pr.allocs

/-- What holds of all processes. -/
structure Kept (s : Kernel) : Prop where
  ascending : ∀ p pr, s.procs p = some pr → Ascending pr.allocs
  intact : ∀ t p pr, s.thread t = some p → s.procs p = some pr → Intact s.mem pr

section
variable {s s' : Kernel} {p : Nat} {pr : Proc} {m m' : Mem}

theorem Intact.of_dirs (h : Intact m pr) (dirs : m'.vm.dirs pr.dir = m.vm.dirs pr.dir) :
    Intact m' pr := by
  have same : ∀ q, m'.state pr.dir q = m.state pr.dir q := fun q => by
    simp only [Mem.state, VmState.abs, dirs]
  exact ⟨h.present.congr (same 0), h.recorded.toAscending, fun page here =>
    (h.recorded.mapped page here).congr (same page)⟩

/-- One process has changed, or is new; the directories of all others are as they were. -/
theorem Kept.update (kept : Kept s) (procs : s'.procs = Function.update s.procs p (some pr))
    (threads : ∀ t q, q ≠ p → s'.thread t = some q → s.thread t = some q)
    (dirs : ∀ t q qr, q ≠ p → s.thread t = some q → s.procs q = some qr →
      s'.mem.vm.dirs qr.dir = s.mem.vm.dirs qr.dir)
    (ascending : Ascending pr.allocs) (own : ∀ t, s'.thread t = some p → Intact s'.mem pr) :
    Kept s' := by
  constructor
  · intro q qr hq
    rw [procs] at hq
    by_cases same : q = p
    · rw [same, Function.update_self, Option.some.injEq] at hq
      exact hq ▸ ascending
    · rw [Function.update_of_ne same] at hq
      exact kept.ascending q qr hq
  · intro t q qr ht hq
    rw [procs] at hq
    by_cases same : q = p
    · subst same
      rw [Function.update_self, Option.some.injEq] at hq
      exact hq ▸ own t ht
    · rw [Function.update_of_ne same] at hq
      have ht' := threads t q same ht
      exact (kept.intact t q qr ht' hq).of_dirs (dirs t q qr same ht' hq)

end

/-! ### A call -/

/-- A thread at the start of a call. -/
structure Turn (m : Machine) (p : Nat) (pr : Proc) : Prop where
  live : m.live = true
  home : m.pageDirectory = m.cr3
  thread : m.kernel.thread m.running = some p
  proc : m.kernel.procs p = some pr
  dir : pr.dir = m.cr3
  sound : Sound m.kernel
  kept : Kept m.kernel

/-- What a call leaves. -/
structure After (m : Machine) : Prop where
  home : m.Home
  kept : Kept m.kernel

section
variable {m m' : Machine} {p : Nat} {pr pr' : Proc}

theorem Turn.wf (turn : Turn m p pr) : m.kernel.mem.vm.abs.Wf := turn.sound.inv.mem.wf

theorem Turn.recorded (turn : Turn m p pr) : Recorded m.kernel.mem m.cr3 pr.allocs :=
  turn.dir ▸ (turn.kept.intact _ p pr turn.thread turn.proc).recorded

theorem Turn.present (turn : Turn m p pr) : Present m.cr3 m.kernel.mem :=
  turn.dir ▸ (turn.kept.intact _ p pr turn.thread turn.proc).present

/-- The directory of another process. -/
theorem Turn.other (turn : Turn m p pr) {q : Nat} {qr : Proc} (ne : q ≠ p)
    (proc : m.kernel.procs q = some qr) : qr.dir ≠ m.cr3 := by
  intro same
  exact ne (turn.sound.inv.distinct q p qr pr proc turn.proc (same.trans turn.dir.symm))

/-- The thread still runs in the directory of its process. -/
theorem home_of (home : m'.pageDirectory = m'.cr3)
    (dir : m'.live = true → (m'.kernel.proc m'.running).map Proc.dir = some m'.cr3) : m'.Home :=
  fun live => ⟨⟨⟨rfl, rfl, home⟩, live⟩, dir live⟩

/-- A call that works in the directory of its process. -/
theorem Turn.after (turn : Turn m p pr) (running : m'.running = m.running) (cr3 : m'.cr3 = m.cr3)
    (home : m'.pageDirectory = m.pageDirectory) (thread : m'.kernel.thread = m.kernel.thread)
    (procs : m'.kernel.procs = Function.update m.kernel.procs p (some pr')) (dir : pr'.dir = pr.dir)
    (dirs : ∀ e, e ≠ m.cr3 → m'.kernel.mem.vm.dirs e = m.kernel.mem.vm.dirs e)
    (present : Present m.cr3 m'.kernel.mem)
    (recorded : Recorded m'.kernel.mem m.cr3 pr'.allocs) : After m' := by
  have here : pr'.dir = m.cr3 := dir.trans turn.dir
  refine ⟨home_of (by rw [home, turn.home, cr3]) fun _ => ?_, ?_⟩
  · rw [Kernel.proc, running, thread, turn.thread, Option.bind_some, procs, Function.update_self, cr3,
      ← here]
    rfl
  · refine turn.kept.update procs (fun t q _ h => thread ▸ h)
      (fun t q qr ne _ proc => dirs _ (turn.other ne proc)) recorded.toAscending fun t _ => ?_
    exact ⟨here ▸ present, here ▸ recorded⟩

/-- A call that leaves processes and threads alone. -/
theorem Turn.after_same (turn : Turn m p pr) (ctl : SameCtl m m') (procs : SameProcs m.kernel m'.kernel)
    (dirs : ∀ e, e ≠ m.cr3 → m'.kernel.mem.vm.dirs e = m.kernel.mem.vm.dirs e)
    (present : Present m.cr3 m'.kernel.mem)
    (own : ∀ q, Private m.kernel.mem m.cr3 q → m'.kernel.mem.state m.cr3 q = m.kernel.mem.state m.cr3 q) :
    After m' := by
  have recorded := turn.recorded
  refine turn.after ?_ ?_ ?_ procs.thread ?_ rfl dirs present
    ⟨recorded.toAscending, fun page here => ?_⟩
  · rw [ctl]
  · rw [ctl]
  · rw [ctl]
  · rw [procs.procs, Function.update_eq_self_iff.mpr turn.proc.symm]
  · have private' := recorded.mapped page here
    exact private'.congr (own page private')

/-- The call has killed its thread, the only one of its process. -/
theorem Turn.after_death (turn : Turn m p pr) {d : Nat} (running : m'.running = m.running)
    (died : Died m.running d m.kernel m'.kernel)
    (dirs : ∀ t q qr, q ≠ p → m.kernel.thread t = some q → m.kernel.procs q = some qr →
      m'.kernel.mem.vm.dirs qr.dir = m.kernel.mem.vm.dirs qr.dir) : After m' := by
  obtain ⟨q, qr, thread, proc, thread', -, procs⟩ := died
  rw [turn.thread, Option.some.injEq] at thread
  subst thread
  rw [turn.proc, Option.some.injEq] at proc
  subst proc
  refine ⟨fun live => ?_, turn.kept.update procs (fun t q _ h => ?_) dirs
    (turn.kept.ascending p pr turn.proc) fun t h => ?_⟩
  · rw [Machine.live, running, Kernel.alive, thread', Function.update_self] at live
    cases live
  · rw [thread', Function.update_apply] at h
    split at h
    · cases h
    · exact h
  · rw [thread', Function.update_apply] at h
    split at h
    · cases h
    · rename_i ne
      exact absurd (turn.sound.inv.single _ _ p turn.thread h (turn.sound.inv.unshared rfl p)) ne

/-- A call that leaves processes, threads and directories alone. -/
theorem Turn.after_dirs (turn : Turn m p pr) (running : m'.running = m.running) (cr3 : m'.cr3 = m.cr3)
    (home : m'.pageDirectory = m.pageDirectory) (procs : SameProcs m.kernel m'.kernel)
    (dirs : m'.kernel.mem.vm.dirs = m.kernel.mem.vm.dirs) : After m' := by
  have intact := (turn.kept.intact _ p pr turn.thread turn.proc).of_dirs (congrFun dirs pr.dir)
  refine turn.after running cr3 home procs.thread ?_ rfl (fun e _ => congrFun dirs e)
    (turn.dir ▸ intact.present) (turn.dir ▸ intact.recorded)
  rw [procs.procs, Function.update_eq_self_iff.mpr turn.proc.symm]

/-- The start of every call: nothing has happened. -/
theorem Turn.idle (turn : Turn m p pr) : After m :=
  turn.after_same (.refl m) (.refl _) (fun _ _ => rfl) turn.present fun _ _ => rfl

/-! ### The calls -/

/-- What a triple says of a call that its thread survives. -/
theorem Turn.ends {α : Type} (turn : Turn m p pr) {prog : KProgram α} {Q : α → Machine → Prop}
    (triple : (call m.running (stays m.running) False).Triple () (Eq m) prog Q) :
    ∃ m' x, m.eval prog = (m', some x) ∧ Q x m' := by
  obtain ⟨m', x, ran, -, post⟩ := triple.ends lives ⟨rfl, fun _ => turn.live⟩ rfl
    (meets_of_forall (fun _ _ no => no.elim) _ _)
  exact ⟨m', x, ran, post⟩

theorem not_user_zero {q : Nat} (user : UserPage q) : q ≠ 0 := by
  rintro rfl
  exact absurd user.1 (by decide)

theorem Turn.newPages (turn : Turn m p pr) {base : Nat} (low : base < virtualAddrEnd) (len : Int)
    (physFrames : Nat) : After (m.eval (newPages base len physFrames)).1 := by
  obtain ⟨m', ok, ran, post⟩ := turn.ends (triple_newPages turn.wf base len physFrames)
  rw [ran]
  cases ok with
  | false =>
      obtain ⟨ctl, procs, k, taken⟩ := post
      exact turn.after_same ctl procs taken.apart.dirs (turn.present.congr (taken.state 0))
        fun q _ => taken.state q
  | true =>
      obtain ⟨count, granted⟩ := post
      obtain ⟨q, qr, thread, proc, procs⟩ := granted.procs
      rw [turn.thread, Option.some.injEq] at thread
      subst thread
      rw [turn.proc, Option.some.injEq] at proc
      subst proc
      refine turn.after ?_ ?_ ?_ granted.thread procs rfl granted.taken.apart.dirs
        (turn.present.congr (granted.taken.rest 0 fun k _ lt zero =>
          not_user_zero (granted.taken.user k lt) zero.symm))
        (granted.recorded low turn.recorded)
      · rw [granted.ctl]
      · rw [granted.ctl]
      · rw [granted.ctl]

theorem Turn.removePages (turn : Turn m p pr) (base : Nat) :
    After (m.eval (removePages base)).1 := by
  obtain ⟨m', r, ran, post⟩ := turn.ends
    (triple_removePages turn.wf turn.thread turn.proc turn.recorded base)
  rw [ran]
  cases r with
  | notFound =>
      obtain ⟨rfl, -⟩ := post
      exact turn.idle
  | stuck => exact post.elim
  | removed =>
      obtain ⟨count, rest, removed⟩ := post
      have users := (turn.recorded.own (by simp [removed.head] : (base, (count * pageSize : Int)) ∈ pr.allocs)).1
      refine turn.after ?_ ?_ ?_ removed.thread removed.procs rfl removed.gone.apart.dirs
        (turn.present.congr (removed.gone.rest 0 fun k lt zero => not_user_zero (users k lt) zero.symm))
        (removed.recorded turn.recorded)
      · rw [removed.ctl]
      · rw [removed.ctl]
      · rw [removed.ctl]

/-- A program that may end in a fault that kills the thread. -/
theorem Turn.fault (turn : Turn m p pr) {prog : KProgram Unit}
    (triple : (call m.running (slain m.running m.cr3 m.kernel) False).Triple () (Looked m) prog
      fun _ => Survived m) : After (m.eval prog).1 := by
  obtain ⟨⟨running, dead⟩, post⟩ := triple.eval ⟨rfl, fun _ => .refl turn.wf⟩ turn.live
    ⟨.refl m, .refl _, rfl⟩ (meets_of_forall (fun _ _ no => no.elim) _ _)
  change (m.eval prog).1.running = m.running at running
  rcases ran : m.eval prog with ⟨m', _ | x⟩
  · have ended := eval_ended ran
    have eq : (Prog.eval Machine.exec Machine.live prog m).1 = m' := congrArg Prod.fst ran
    rw [ran] at running
    rw [Machine.live, running] at ended
    have aside := dead (by rw [eq]; exact ended)
    rw [eq] at aside
    rcases aside.procs with same | died
    · have live := turn.live
      rw [Machine.live, Kernel.alive, ← same.thread] at live
      rw [Kernel.alive, live] at ended
      cases ended
    · exact turn.after_death running died fun t q qr ne _ proc =>
        aside.apart.dirs _ (turn.other ne proc)
  · have survived := post x (congrArg Prod.snd ran)
    have eq : (Prog.eval Machine.exec Machine.live prog m).1 = m' := congrArg Prod.fst ran
    rw [eq] at survived
    exact turn.after_same survived.ctl survived.procs survived.keeps.apart.dirs
      (survived.keeps.present turn.present) survived.keeps.own

theorem InRecords.user {allocs : List (Nat × Int)} (h : Ascending allocs) {page : Nat}
    (here : InRecords allocs page) : UserPage page := by
  obtain ⟨r, hr, k, lt, rfl⟩ := here
  exact ((h.user r hr).nth lt).2

/-- The records of the parent are those of the child. -/
theorem Forked.intact {child tid : Nat} (forked : Forked p pr child tid m m')
    (recorded : Recorded m.kernel.mem m.cr3 pr.allocs) :
    Intact m'.kernel.mem { dir := child, allocs := pr.allocs } := by
  constructor
  · rw [present_iff kernelPageCount]
    cases forked.pages kernelPageCount ⟨le_rfl, by decide⟩ with
    | unmapped _ new => rw [new]; rfl
    | zero _ new _ _ => rw [new]; rfl
    | own _ new _ _ _ _ _ _ => rw [new]; rfl
  · refine ⟨recorded.toAscending, fun page here => ?_⟩
    obtain ⟨pte, mapped, -, rw, nz⟩ := recorded.mapped page here
    cases forked.pages page (here.user recorded.toAscending) with
    | unmapped old _ =>
        rw [mapped] at old
        cases old
    | zero old _ zero _ =>
        rw [mapped, Option.some.injEq, PageState.mapped.injEq] at old
        exact absurd (old ▸ zero) nz
    | own old new _ own us rw' _ _ =>
        rw [mapped, Option.some.injEq, PageState.mapped.injEq] at old
        exact ⟨_, new, us, rw'.trans (old ▸ rw), own⟩

theorem Turn.forked (turn : Turn m p pr) {child tid : Nat} (forked : Forked p pr child tid m m') :
    After m' := by
  obtain ⟨noThread, noProc⟩ := turn.sound.inv.fresh m.kernel.threadCount le_rfl
  have old : m.running ≠ m.kernel.threadCount := by
    intro same
    rw [← same, turn.thread] at noThread
    cases noThread
  have old' : p ≠ m.kernel.threadCount := by
    rintro rfl
    rw [turn.proc] at noProc
    cases noProc
  refine ⟨home_of ?_ fun _ => ?_, turn.kept.update forked.procs (fun t q ne h => ?_)
    (fun t q qr _ ht hq => forked.dirs _ ?_) turn.recorded.toAscending
    fun _ _ => forked.intact turn.recorded⟩
  · rw [forked.pageDirectory, turn.home, forked.cr3]
  · rw [Kernel.proc, forked.running, forked.thread, Function.update_of_ne old, turn.thread,
      Option.bind_some, forked.procs, Function.update_of_ne old', turn.proc, forked.cr3, ← turn.dir]
    rfl
  · rw [forked.thread, Function.update_apply] at h
    split at h
    · exact absurd (Option.some.inj h).symm ne
    · exact h
  · intro same
    have := (turn.kept.intact t q qr ht hq).present
    rw [Present, same, forked.absent] at this
    cases this

/-- `fork` -/
theorem Turn.fork (turn : Turn m p pr) : After (m.eval fork).1 := by
  have triple : (call m.running (stays m.running) False).Triple () (Eq m) Syscall.fork
      (ForkEnds False m) := by
    refine Triple.bind (Q := fun _ => Eq m) (Triple.atOnce ?_) fun count => ?_
    · rintro _ holds - rfl
      exact ⟨holds, fun _ => rfl⟩
    split
    · exact triple_forkCtrlBlk turn.wf turn.home turn.present
    · exact Triple.ret fun _ _ h => h ▸ Restored.refl turn.wf
  obtain ⟨m', r, ran, post⟩ := turn.ends triple
  rw [ran]
  cases r with
  | none =>
      refine turn.after_dirs ?_ ?_ ?_ post.procs post.dirs
      · rw [post.ctl]
      · rw [post.ctl]
      · rw [post.ctl]
  | some tid =>
      obtain ⟨q, qr, child, thread, proc, forked⟩ := post
      rw [turn.thread, Option.some.injEq] at thread
      subst thread
      rw [turn.proc, Option.some.injEq] at proc
      subst proc
      exact turn.forked forked

theorem Turn.execed (turn : Turn m p pr) {d : Nat} (execed : Execed d m m')
    (housed : Housed m.running m'.kernel) : After m' := by
  obtain ⟨q, qr, guest, thread, proc, procs⟩ := execed.procs
  rw [turn.thread, Option.some.injEq] at thread
  subst thread
  have home : m'.kernel.proc m'.running = some { dir := d, guest := guest } := by
    rw [Kernel.proc, execed.running, execed.thread, turn.thread, Option.bind_some, procs,
      Function.update_self]
  refine ⟨home_of (execed.pageDirectory.trans execed.cr3.symm) fun _ => ?_,
    turn.kept.update procs (fun t q _ h => execed.thread ▸ h) (fun t q qr ne ht hq => ?_) .nil
    fun _ _ => ⟨?_, .nil _ _⟩⟩
  · rw [home, execed.cr3]
    rfl
  · refine execed.dirs _ (fun same => ?_) (turn.other ne hq)
    have := (turn.kept.intact t q qr ht hq).present
    rw [Present, same, execed.absent] at this
    cases this
  · refine housed _ ?_
    rwa [← execed.running]

/-- `exec` -/
theorem Turn.exec (turn : Turn m p pr) (elf : Option Elf) (name : List UInt8)
    (args : List (List UInt8))
    (housed : Kernel.alive m.running (m.eval (exec elf name args)).1.kernel = true →
      Housed m.running (m.eval (exec elf name args)).1.kernel) :
    After (m.eval (exec elf name args)).1 := by
  have triple := @triple_handleExec False _ turn.wf turn.live turn.home _ _ turn.thread turn.proc elf
    name args
  have start : mortal m.running m.kernel.mem.vm.nextDir m.kernel m.kernel := by
    intro no
    have live := turn.live
    rw [Machine.live, no] at live
    cases live
  obtain ⟨⟨running, dead⟩, post⟩ := triple.eval ⟨rfl, start⟩ turn.live rfl
    (meets_of_forall (fun _ _ no => no.elim) _ _)
  rw [Machine.eval] at *
  generalize hm : (Prog.eval Machine.exec Machine.live (Syscall.exec elf name args) m).1 = m' at *
  cases ended : m'.live with
  | false =>
      rw [Machine.live, running] at ended
      have lost := dead ended
      refine turn.after_death running lost.died fun t q qr _ _ hq => lost.dirs _ ?_
      exact Nat.ne_of_lt (turn.sound.inv.dirs q qr hq)
  | true =>
      have result : ∃ ok, (Prog.eval Machine.exec Machine.live (Syscall.exec elf name args) m).2 =
          some ok := by
        refine Option.ne_none_iff_exists'.mp fun none => ?_
        have := eval_ended (Prod.ext hm none)
        rw [ended] at this
        cases this
      obtain ⟨ok, ran⟩ := result
      have ends := post ok ran
      cases ok with
      | false =>
          have failed : ExecFailed False m m' := ends
          refine turn.after_dirs ?_ ?_ ?_ failed.procs failed.dirs
          · rw [failed.ctl]
          · rw [failed.ctl]
          · rw [failed.ctl]
      | true =>
          rw [Machine.live, running] at ended
          exact turn.execed ends (housed ended)

end

/-! ### Runs -/

/-- The machine between two calls. -/
structure Machine.Good (m : Machine) : Prop where
  sound : Sound m.kernel
  home : m.Home
  kept : Kept m.kernel

section
variable {physFrames : Nat} {m : Machine}

/-- The first process has a directory, and no records. -/
theorem boot_first {oracle : Nat → Bool} {phys : Nat → UInt8} {s : Kernel}
    (started : Memory.boot physFrames oracle phys = some s) {p : Nat} {pr : Proc}
    (proc : s.procs p = some pr) : Present pr.dir s.mem ∧ pr.allocs = [] := by
  unfold Memory.boot at started
  generalize initPageDirManager physFrames (.boot oracle) = init at started
  obtain ⟨_ | _, vm⟩ := init
  · cases started
  dsimp only at started
  rcases constructPageDir_spec vm with ⟨fails, -⟩ | ⟨works, abs⟩
  · generalize constructPageDir vm = out at fails started
    obtain ⟨_, vm'⟩ := out
    cases fails
    cases started
  · generalize constructPageDir vm = out at works abs started
    obtain ⟨_, vm'⟩ := out
    cases works
    cases started
    obtain ⟨-, rfl⟩ := update_none_eq proc
    refine ⟨?_, rfl⟩
    rw [present_iff 0]
    simp [Mem.state, Mem.withVm, abs]

theorem boot_good (fits : physFrames ≤ virtualAddrEnd / pageSize) {oracle : Nat → Bool}
    {phys : Nat → UInt8} {ctl : Ctl} (started : boot physFrames oracle phys ctl = some m) :
    m.Good := by
  obtain ⟨sound, home⟩ := boot_sound fits started
  have first : ∀ p pr, m.kernel.procs p = some pr → Present pr.dir m.kernel.mem ∧ pr.allocs = [] :=
    fun p pr => boot_first (boot_spec started).1
  refine ⟨sound, home, fun p pr proc => ?_, fun t p pr _ proc => ⟨(first p pr proc).1, ?_⟩⟩
  · rw [(first p pr proc).2]
    exact .nil
  · rw [(first p pr proc).2]
    exact .nil _ _

/-- A thread that is alive makes its calls in its own directory. -/
theorem Machine.Good.turn (good : m.Good) {t : Nat} (alive : Kernel.alive t m.kernel = true) :
    ∃ p pr, Turn (m.switchTo t) p pr ∧ (m.switchTo t).running = t := by
  obtain ⟨⟨⟨runs, live⟩, dir⟩, running⟩ := switchTo_home good.home good.sound alive
  have kernel := switchTo_kernel m t
  obtain ⟨pr, proc, dir⟩ := Option.map_eq_some_iff.mp dir
  obtain ⟨p, thread, procs⟩ := Option.bind_eq_some_iff.mp proc
  exact ⟨p, pr, ⟨live, runs.pageDirectory, running.symm ▸ thread, procs, dir, kernel.symm ▸ good.sound,
    kernel.symm ▸ good.kept⟩, running⟩

theorem eval_unit {α : Type} (m : Machine) (prog : KProgram α) :
    (m.eval (do let _ ← prog; pure ())).1 = (m.eval prog).1 :=
  eval_map_state prog (fun _ => ()) m

/-- `exec` leaves its thread in a directory that is there. -/
theorem housed_exec {s : Kernel} {t : Nat} (wf : s.mem.vm.abs.Wf) (alive : Kernel.alive t s = true)
    (housed : Housed t s) (image : Option Image) (name : List UInt8) (args : List (List UInt8))
    (live : Kernel.alive t (s.eval t (Memory.exec image name args)).1 = true) :
    Housed t (s.eval t (Memory.exec image name args)).1 := by
  obtain ⟨-, post⟩ := (triple_exec_housed image name args wf housed).eval (fun no => no.elim) alive rfl
    (meets_of_forall (fun _ _ no => no.elim) _ _)
  rcases ran : s.eval t (Memory.exec image name args) with ⟨s', _ | x⟩
  · rw [ran] at live
    exact absurd live (Bool.eq_false_iff.mp (eval_ended ran))
  · have := post x (congrArg Prod.snd ran)
    rw [Kernel.eval] at ran
    rwa [ran] at this

theorem good_step (good : m.Good) (i : Nat × Call) : (step physFrames m i).Good := by
  cases alive : Kernel.alive i.1 m.kernel with
  | false =>
      rw [step, alive, if_neg (by decide)]
      exact good
  | true =>
      obtain ⟨p, pr, turn, running⟩ := good.turn alive
      have kernel := @step_kernel physFrames _ good.sound good.home i alive
      suffices after : After (step physFrames m i) from
        ⟨sound_step good.sound good.home i, after.home, after.kept⟩
      rw [step, if_pos alive] at kernel ⊢
      obtain ⟨t, call⟩ := i
      cases call with
      | load v => exact turn.fault (triple_load turn.wf v)
      | store v b => exact turn.fault (triple_store turn.wf v b)
      | pageFault present write v => exact turn.fault (triple_pageFault turn.wf present write v)
      | newPages base len =>
          rw [Call.prog, eval_unit]
          exact turn.newPages (Nat.mod_lt _ (by decide)) len physFrames
      | removePages base =>
          rw [Call.prog, eval_unit]
          exact turn.removePages _
      | fork =>
          rw [Call.prog, eval_unit]
          exact turn.fork
      | exec elf name args =>
          rw [Call.prog, eval_unit] at kernel ⊢
          refine turn.exec elf name args fun live => ?_
          rw [running, kernel] at live ⊢
          refine housed_exec good.sound.inv.mem.wf alive (fun pr proc => ?_) _ name args live
          obtain ⟨q, thread, procs⟩ := Option.bind_eq_some_iff.mp proc
          exact (good.kept.intact t q pr thread procs).present

end

end OsKernel.Syscall
