/-
Wake-ups between exit and wait.

* `no_lost_wakeup`: while no thread is killed inside `handle_wait`, a thread blocked
  in `VANISH_WAIT` whose process has an exited child is about to be served, by a
  thread of its process that is inside `handle_wait` or by one that has reaped a
  child and has its last step still to come.
* `waiters_drain_iff`: a process without children leaves no thread blocked unless a
  thread returns from `wait` with -1, or is killed by a fault there, while another is
  blocked; that thread wakes nobody, so with three waiters and one child the third
  stays blocked (`third_waiter_stays`).
* `last_thread`: a process runs out of threads only through the last-thread branch
  of `handle_vanish`, taken once, when all other threads are terminated.
-/

import OsKernel.Process.Reaping

namespace OsKernel.Exit

open OsKernel.Run

namespace State

/-- A thread of process `p` is `READY` or `RUNNING` inside `handle_wait`. -/
def OnTheWay (s : State) (p : Nat) : Prop :=
  ∃ u, s.Runnable u ∧ s.proc u = p ∧ (s.pc u).inWait = true

end State

theorem Pc.inWait_of_pastReap {pc : Pc} (h : pc.pastReap = true) : pc.inWait = true := by
  cases pc <;> simp_all [Pc.pastReap, Pc.inWait]

/-! ### What a step does to the other threads -/

namespace State

variable {s : State} {t u w p : Nat} {choice : Choice}

theorem wakeOne_sublist (s : State) (p : Nat) : (s.wakeOne p).waiting.Sublist s.waiting := by
  obtain ⟨w, eq, sub⟩ := s.wakeOne_eq p
  rw [eq]
  exact sub

@[simp] theorem wakeOne_procCount (s : State) (p : Nat) :
    (s.wakeOne p).procCount = s.procCount := by
  obtain ⟨w, eq, -⟩ := s.wakeOne_eq p
  rw [eq]

@[simp] theorem wakeOne_proc (s : State) (p : Nat) : (s.wakeOne p).proc = s.proc := by
  obtain ⟨w, eq, -⟩ := s.wakeOne_eq p
  rw [eq]

@[simp] theorem wakeOne_alive (s : State) (p : Nat) : (s.wakeOne p).alive = s.alive := by
  obtain ⟨w, eq, -⟩ := s.wakeOne_eq p
  rw [eq]

@[simp] theorem wakeOne_pc (s : State) (p : Nat) : (s.wakeOne p).pc = s.pc := by
  obtain ⟨w, eq, -⟩ := s.wakeOne_eq p
  rw [eq]

@[simp] theorem wakeOne_children (s : State) (p : Nat) : (s.wakeOne p).children = s.children := by
  obtain ⟨w, eq, -⟩ := s.wakeOne_eq p
  rw [eq]

/-- A waiter that `wakeOne` leaves blocked shows that it woke another one. -/
theorem wakeOne_wakes (nodup : s.waiting.Nodup) (mem : w ∈ (s.wakeOne p).waiting)
    (proc : s.proc w = p) : ∃ u ∈ s.waiting, s.proc u = p ∧ u ∉ (s.wakeOne p).waiting := by
  cases found : s.waiting.find? fun u => s.proc u = p with
  | none =>
    have blocked : w ∈ s.waiting := (s.wakeOne_sublist p).subset mem
    simpa [proc] using List.find?_eq_none.mp found w blocked
  | some u =>
    refine ⟨u, List.mem_of_find?_eq_some found, by simpa using List.find?_some found, ?_⟩
    simp only [wakeOne, found]
    exact nodup.not_mem_erase

/-- What a step of thread `t` does. Most steps move the thread and change a lock or a
parent pointer. -/
inductive Effect (s : State) (t : Nat) (choice : Choice) : State → Prop
  | plain (lock : Nat → Option Nat) (parent : Nat → Nat) (pc : Pc)
      (stays : (s.pc t).inWait = true → pc.inWait = true ∧
          ((s.pc t).pastReap = true → pc.pastReap = true) ∨
        (s.pc t = .waitCheck ∧ s.children (s.proc t) = []) ∨ (s.pc t = .free ∧ choice = .fault)) :
      Effect s t choice
        { s with lock := lock, parent := parent, pc := Function.update s.pc t pc }
  | fork (place : s.pc t = .user) (one : s.aliveCount (s.proc t) = 1) :
      Effect s t choice (s.fork t)
  | threadFork (place : s.pc t = .user) (free : s.lock (s.proc t) = none) :
      Effect s t choice (s.threadFork t)
  | block (locked : List Nat) (place : s.pc t = .scan locked []) :
      Effect s t choice (s.block t locked)
  | detach (c : Nat) (place : s.pc t = .detach c) : Effect s t choice (s.detach t c)
  | splice (c : Nat) (place : s.pc t = .splice c) : Effect s t choice (s.splice t c)
  | wake (place : s.pc t = .wake) : Effect s t choice (s.wake t)
  | vanishAct (n : Nat) (place : s.pc t = .vanishAct n) : Effect s t choice (s.vanishAct t n)
  | kill (place : s.pc t = .kill) : Effect s t choice (s.kill t)

namespace Effect

theorem same (s : State) (t : Nat) (choice : Choice) : Effect s t choice s := by
  have := @Effect.plain s t choice s.lock s.parent (s.pc t) fun h => Or.inl ⟨h, id⟩
  rwa [Function.update_eq_self] at this

theorem goto {s : State} {t : Nat} {choice : Choice} {lock : Nat → Option Nat} {pc : Pc}
    (stays : (s.pc t).inWait = true → pc.inWait = true ∧
        ((s.pc t).pastReap = true → pc.pastReap = true) ∨
      (s.pc t = .waitCheck ∧ s.children (s.proc t) = []) ∨ (s.pc t = .free ∧ choice = .fault)) :
    Effect s t choice (State.goto { s with lock := lock } t pc) :=
  Effect.plain lock s.parent pc stays

theorem acquire {s : State} {t l : Nat} {choice : Choice} {pc : Pc}
    (stays : (s.pc t).inWait = true → pc.inWait = true)
    (past : (s.pc t).pastReap = true → pc.pastReap = true) :
    Effect s t choice (s.acquire t l pc) := by
  unfold State.acquire
  split
  · exact Effect.goto fun h => Or.inl ⟨stays h, past⟩
  · exact Effect.same s t choice

end Effect

theorem next_effect (s : State) (t : Nat) (choice : Choice) :
    Effect s t choice (s.next t choice) := by
  unfold next
  dsimp only
  cases hpc : s.pc t with
  | user =>
    dsimp only
    split
    · exact Effect.same s t choice
    cases choice with
    | fork =>
      by_cases one : s.aliveCount (s.proc t) = 1
      · exact Effect.fork hpc one
      · simp only [call, State.fork, if_neg one]
        exact Effect.same s t .fork
    | threadFork =>
      by_cases free : s.lock (s.proc t) = none
      · exact Effect.threadFork hpc free
      · simp only [call, State.threadFork, if_neg free]
        exact Effect.same s t .threadFork
    | fault => exact Effect.same s t .fault
    | _ => exact Effect.goto (by simp [hpc, Pc.inWait])
  | waitLock | lockInit | vanishLock | killLock =>
    exact Effect.acquire (by simp [hpc, Pc.inWait]) (by simp [hpc, Pc.pastReap])
  | waitCheck =>
    dsimp only
    split
    · rename_i none
      exact Effect.goto fun _ => Or.inr (Or.inl ⟨hpc, none⟩)
    · exact Effect.goto (by simp [hpc, Pc.inWait, Pc.pastReap])
  | scan locked rest =>
    cases rest with
    | nil => exact Effect.block locked hpc
    | cons c rest => exact Effect.acquire (by simp [Pc.inWait]) (by simp [hpc, Pc.pastReap])
  | count locked c rest =>
    dsimp only
    split <;> exact Effect.goto (by simp [hpc, Pc.inWait, Pc.pastReap])
  | unlockFound todo c =>
    cases todo <;> exact Effect.goto (by simp [hpc, Pc.inWait, Pc.pastReap])
  | detach c => exact Effect.detach c hpc
  | splice c => exact Effect.splice c hpc
  | reparent todo =>
    cases todo with
    | nil => by_cases h : s.proc t = init <;> exact Effect.goto (by simp [h, Pc.inWait, Pc.pastReap])
    | cons x todo => exact Effect.plain s.lock _ _ (by simp [hpc, Pc.inWait, Pc.pastReap])
  | free =>
    by_cases h : choice = .fault
    · exact Effect.goto fun _ => Or.inr (Or.inr ⟨hpc, h⟩)
    · exact Effect.goto (by simp [h, Pc.inWait, Pc.pastReap])
  | wake => exact Effect.wake hpc
  | vanishAct n => exact Effect.vanishAct n hpc
  | kill => exact Effect.kill hpc
  | _ => exact Effect.goto (by simp [hpc, Pc.inWait, Pc.pastReap])

/-- `kill` apart, a step ends no other thread, and it moves and blocks none. -/
theorem next_other (choice : Choice) (inv : Inv s) (ne : u ≠ t) (alive : s.alive u = true) :
    (s.next t choice).proc u = s.proc u ∧ (s.next t choice).pc u = s.pc u ∧
      (u ∉ s.waiting → u ∉ (s.next t choice).waiting) ∧
      (¬ (s.pc t = .kill ∧ s.proc u = s.proc t) → (s.next t choice).alive u = true) := by
  have old := Spawn.ne_new inv alive
  have effect := s.next_effect t choice
  generalize s.next t choice = s' at effect ⊢
  cases effect with
  | plain lock parent pc stays => simp [ne, alive]
  | fork place one => simp [State.fork, one, old, alive]
  | threadFork place free => simp [State.threadFork, free, old, alive]
  | block locked place => simp [block, ne, alive]
  | detach c place => simp [detach, ne, alive]
  | splice c place => simp [State.splice, ne, alive]
  | wake place =>
    refine ⟨by simp [wake, goto], by simp [wake, goto, ne], fun h mem => h ?_, fun _ => by
      simp [wake, goto, alive]⟩
    exact (s.wakeOne_sublist _).subset ((State.wakeOne_sublist _ _).subset mem)
  | vanishAct n place =>
    simp only [vanishAct]
    split
    · refine ⟨by simp, by simp, fun h mem => h ((s.wakeOne_sublist _).subset mem), ?_⟩
      simp [ne, alive]
    · simp [ne, alive]
  | kill place =>
    refine ⟨rfl, by simp [State.kill, ne], fun h mem => h (List.mem_of_mem_filter mem), ?_⟩
    intro h
    have other : s.proc u ≠ s.proc t := fun same => h ⟨place, same⟩
    simp [State.kill, alive, other]

/-- Where a thread leaves `handle_wait`, or blocks there. -/
theorem next_inWait (choice : Choice) (run : s.Runnable t) (inside : (s.pc t).inWait = true) :
    ((s.next t choice).Runnable t ∧ ((s.next t choice).pc t).inWait = true ∧
        ((s.pc t).pastReap = true → ((s.next t choice).pc t).pastReap = true)) ∨
      (∃ locked, s.pc t = .scan locked []) ∨
      (s.pc t = .waitCheck ∧ s.children (s.proc t) = []) ∨
      s.pc t = .wake ∨ (s.pc t = .free ∧ choice = .fault) := by
  have effect := s.next_effect t choice
  generalize s.next t choice = s' at effect ⊢
  cases effect with
  | plain lock parent pc stays =>
    rcases stays inside with ⟨inside', past⟩ | leaves | leaves
    · exact Or.inl ⟨run, by simpa using inside', by simpa using past⟩
    · exact Or.inr (Or.inr (Or.inl leaves))
    · exact Or.inr (Or.inr (Or.inr (Or.inr leaves)))
  | block locked place => exact Or.inr (Or.inl ⟨locked, place⟩)
  | detach c place =>
    refine Or.inl ⟨run, ?_, ?_⟩ <;>
      by_cases h : s.proc t = init <;> simp [detach, h, place, Pc.inWait, Pc.pastReap]
  | splice c place =>
    exact Or.inl ⟨run, by simp [State.splice, Pc.inWait], by simp [State.splice, Pc.pastReap]⟩
  | wake place => exact Or.inr (Or.inr (Or.inr (Or.inl place)))
  | fork place | threadFork place | vanishAct n place | kill place =>
    simp [place, Pc.inWait] at inside

/-- Only the step that blocks adds a waiter. -/
theorem next_waiting (mem : w ∈ (s.next t choice).waiting) :
    w ∈ s.waiting ∨ (w = t ∧ ∃ locked, s.pc t = .scan locked []) := by
  revert mem
  have effect := s.next_effect t choice
  generalize s.next t choice = s' at effect ⊢
  cases effect with
  | plain | detach | splice => exact Or.inl
  | fork place one =>
    simp only [State.fork, one, if_true]
    exact Or.inl
  | threadFork place free =>
    simp only [State.threadFork, free, if_true]
    exact Or.inl
  | block locked place =>
    intro mem
    rcases List.mem_append.mp mem with h | h
    · exact Or.inl h
    · exact Or.inr ⟨List.mem_singleton.mp h, locked, place⟩
  | wake place =>
    exact fun mem =>
      Or.inl ((s.wakeOne_sublist _).subset ((State.wakeOne_sublist _ _).subset mem))
  | vanishAct n place =>
    simp only [vanishAct]
    split
    · exact fun mem => Or.inl ((s.wakeOne_sublist _).subset mem)
    · exact Or.inl
  | kill place => exact fun mem => Or.inl (List.mem_of_mem_filter mem)

/-- A thread ends itself at the end of `handle_vanish` only. -/
theorem next_self (choice : Choice) (inv : Inv s) (alive : s.alive t = true) :
    (s.next t choice).proc t = s.proc t ∧
      ((∀ n, s.pc t ≠ .vanishAct n) → (s.next t choice).alive t = true) := by
  have old := Spawn.ne_new inv alive
  have effect := s.next_effect t choice
  generalize s.next t choice = s' at effect ⊢
  cases effect with
  | plain | block | detach | splice => exact ⟨rfl, fun _ => alive⟩
  | fork place one => simp [State.fork, one, old, alive]
  | threadFork place free => simp [State.threadFork, free, old, alive]
  | wake place => simp [wake, goto, alive]
  | vanishAct n place =>
    simp only [vanishAct]
    split <;> simp [place]
  | kill place => simp [State.kill, alive]

/-- A thread that is alive was so before, or is the new one. -/
theorem alive_of_next (alive : (s.next t choice).alive u = true) :
    (s.alive u = true ∧ (s.next t choice).proc u = s.proc u) ∨
      (s.next t choice).proc u = s.proc t ∨ (s.next t choice).proc u = s.procCount := by
  revert alive
  have effect := s.next_effect t choice
  generalize s.next t choice = s' at effect ⊢
  cases effect with
  | plain | block | detach | splice => exact fun h => Or.inl ⟨h, rfl⟩
  | fork place one =>
    simp only [State.fork, one, if_true]
    intro alive
    by_cases new : u = s.threadCount
    · exact Or.inr (Or.inr (by simp [new]))
    · exact Or.inl ⟨by simpa [new] using alive, by simp [new]⟩
  | threadFork place free =>
    simp only [State.threadFork, free, if_true]
    intro alive
    by_cases new : u = s.threadCount
    · exact Or.inr (Or.inl (by simp [new]))
    · exact Or.inl ⟨by simpa [new] using alive, by simp [new]⟩
  | wake place => exact fun h => Or.inl ⟨by simpa [wake, goto] using h, by simp [wake, goto]⟩
  | vanishAct n place =>
    simp only [vanishAct]
    intro alive
    have ne : u ≠ t := by
      rintro rfl
      simp at alive
    split at alive
    · exact Or.inl ⟨by simpa [ne] using alive, by simp [*]⟩
    · exact Or.inl ⟨by simpa [ne] using alive, by simp [*]⟩
  | kill place =>
    intro alive
    simp only [State.kill, Bool.and_eq_true] at alive
    exact Or.inl ⟨alive.1, rfl⟩

/-- A process loses its last thread only at the end of `handle_vanish`. -/
theorem live_next (choice : Choice) (inv : Inv s) (alive : s.alive t = true) {c : Nat} (live : s.Live c) :
    (s.next t choice).Live c ∨ ((∃ n, s.pc t = .vanishAct n) ∧ c = s.proc t ∧
      ∀ u, s.alive u = true → s.proc u = c → u = t) := by
  obtain ⟨v, aliveV, procV⟩ := live
  have self := next_self choice inv alive
  by_cases last : (∃ n, s.pc t = .vanishAct n) ∧ c = s.proc t ∧
      ∀ u, s.alive u = true → s.proc u = c → u = t
  · exact Or.inr last
  left
  by_cases same : c = s.proc t
  · by_cases ends : ∃ n, s.pc t = .vanishAct n
    · obtain ⟨n, ends⟩ := ends
      have : ∃ u, s.alive u = true ∧ s.proc u = c ∧ u ≠ t := by
        by_contra none
        refine last ⟨⟨n, ends⟩, same, fun u aliveU procU => ?_⟩
        by_contra ne
        exact none ⟨u, aliveU, procU, ne⟩
      obtain ⟨u, aliveU, procU, ne⟩ := this
      have other := next_other choice inv ne aliveU
      exact ⟨u, other.2.2.2 (by simp [ends]), other.1.trans procU⟩
    · exact ⟨t, self.2 (fun n h => ends ⟨n, h⟩), self.1.trans same.symm⟩
  · have ne : v ≠ t := by
      rintro rfl
      exact same procV.symm
    have other := next_other choice inv ne aliveV
    refine ⟨v, other.2.2.2 ?_, other.1.trans procV⟩
    rintro ⟨-, h⟩
    exact same (procV.symm.trans h)

/-- A list of children grows by `fork`, with a process that has a thread, and by the
hand-over of orphans to `init`. -/
theorem next_children (inv : Inv s) (run : s.Runnable t) {c : Nat}
    (mem : c ∈ (s.next t choice).children p) :
    c ∈ s.children p ∨ (p = init ∧ ∃ d, s.pc t = .splice d) ∨ (s.next t choice).Live c := by
  revert mem
  have effect := s.next_effect t choice
  generalize s.next t choice = s' at effect ⊢
  cases effect with
  | plain | block | kill => exact Or.inl
  | fork place one =>
    simp only [State.fork, one, if_true]
    intro mem
    by_cases hp : p = s.proc t
    · subst hp
      simp only [Function.update_self, List.mem_append, List.mem_singleton] at mem
      rcases mem with h | rfl
      · exact Or.inl h
      · exact Or.inr (Or.inr ⟨s.threadCount, by simp, by simp⟩)
    · exact Or.inl (by simpa [hp] using mem)
  | threadFork place free =>
    simp only [State.threadFork, free, if_true]
    exact Or.inl
  | detach d place =>
    intro mem
    by_cases hp : p = s.proc t
    · subst hp
      simp only [detach, Function.update_self] at mem
      exact Or.inl (List.mem_of_mem_erase mem)
    · exact Or.inl (by simpa [detach, hp] using mem)
  | splice d place =>
    rw [inv.splice_children run place]
    intro mem
    split at mem
    · cases mem
    · split at mem
      · rename_i hp
        exact Or.inr (Or.inl ⟨hp, d, place⟩)
      · exact Or.inl mem
  | wake place => exact fun mem => Or.inl (by simpa [wake, goto] using mem)
  | vanishAct n place =>
    simp only [vanishAct]
    split
    · exact fun mem => Or.inl (by simpa using mem)
    · exact Or.inl

end State

/-! ### No lost wake-up -/

/-- A blocked thread of a process with an exited child is about to be served. -/
def NoLostWakeup (s : State) : Prop :=
  ∀ p, (∃ c ∈ s.children p, ¬ s.Live c) → (∃ w ∈ s.waiting, s.proc w = p) →
    s.OnTheWay p ∨ ∃ u, s.alive u = true ∧ (s.pc u).pastReap = true

/-- The step kills no thread inside `handle_wait`: neither the siblings of a caller of
`task_vanish`, nor a thread that stores a status word. -/
def Spares (s : State) (i : Nat × Choice) : Prop :=
  s.Runnable i.1 →
    (s.pc i.1 = .kill → ∀ u, s.alive u = true → s.proc u = s.proc i.1 → u ≠ i.1 →
      (s.pc u).inWait = false) ∧
    (s.pc i.1 = .free → i.2 ≠ .fault)

namespace State

/-- Who serves a waiter of `p`: for `init` also a thread that hands orphans over. -/
def Served (s : State) (p : Nat) : Prop :=
  s.OnTheWay p ∨ (p = init ∧ ∃ u, s.alive u = true ∧ (s.pc u).pastReap = true)

variable {s : State} {t w p : Nat} {choice : Choice}

theorem OnTheWay.next (choice : Choice) (inv : Inv s) (run : s.Runnable t) (h : s.OnTheWay p) :
    (s.next t choice).OnTheWay p ∨
      (s.proc t = p ∧ ((∃ locked, s.pc t = .scan locked []) ∨
        (s.pc t = .waitCheck ∧ s.children p = []) ∨ s.pc t = .wake ∨
        (s.pc t = .free ∧ choice = .fault))) ∨
      (s.pc t = .kill ∧ s.proc t = p ∧
        ∃ u, u ≠ t ∧ s.alive u = true ∧ s.proc u = p ∧ (s.pc u).inWait = true) := by
  obtain ⟨u, runU, procU, inside⟩ := h
  by_cases ne : u = t
  · subst ne
    rcases next_inWait choice run inside with ⟨run', inside', -⟩ | leaves
    · exact Or.inl ⟨u, run', (next_self _ inv run.1).1.trans procU, inside'⟩
    · rw [procU] at leaves
      exact Or.inr (Or.inl ⟨procU, leaves⟩)
  · obtain ⟨proc, pc, awake, alive⟩ := next_other choice inv ne runU.1
    by_cases killed : s.pc t = .kill ∧ s.proc u = s.proc t
    · exact Or.inr (Or.inr ⟨killed.1, killed.2.symm.trans procU, u, ne, runU.1, procU, inside⟩)
    · refine Or.inl ⟨u, ⟨alive killed, awake runU.2⟩, proc.trans procU, ?_⟩
      rw [pc]
      exact inside

theorem Served.next (choice : Choice) (inv : Inv s) (run : s.Runnable t) (spares : Spares s (t, choice))
    (h : s.Served p) :
    (s.next t choice).Served p ∨
      (s.proc t = p ∧ ((∃ locked, s.pc t = .scan locked []) ∨ s.children p = [])) ∨
      (s.pc t = .wake ∧ (s.proc t = p ∨ p = init)) := by
  obtain ⟨noKill, noFault⟩ := spares run
  rcases h with h | ⟨rfl, u, alive, past⟩
  · rcases h.next choice inv run with h | ⟨proc, leaves⟩ | ⟨kill, proc, u, ne, alive, procU, inside⟩
    · exact Or.inl (Or.inl h)
    · rcases leaves with block | ⟨-, none⟩ | wake | ⟨free, fault⟩
      · exact Or.inr (Or.inl ⟨proc, Or.inl block⟩)
      · exact Or.inr (Or.inl ⟨proc, Or.inr none⟩)
      · exact Or.inr (Or.inr ⟨wake, Or.inl proc⟩)
      · exact absurd fault (noFault free)
    · have := noKill kill u alive (procU.trans proc.symm) ne
      rw [inside] at this
      cases this
  · have inside := Pc.inWait_of_pastReap past
    by_cases ne : u = t
    · subst ne
      rcases next_inWait choice run inside with
        ⟨run', -, past'⟩ | ⟨locked, block⟩ | ⟨check, -⟩ | wake | ⟨free, fault⟩
      · exact Or.inl (Or.inr ⟨rfl, u, run'.1, past' past⟩)
      · simp [block, Pc.pastReap] at past
      · simp [check, Pc.pastReap] at past
      · exact Or.inr (Or.inr ⟨wake, Or.inr rfl⟩)
      · exact absurd fault (noFault free)
    · obtain ⟨proc, pc, -, alive'⟩ := next_other choice inv ne alive
      refine Or.inl (Or.inr ⟨rfl, u, alive' ?_, by rw [pc]; exact past⟩)
      rintro ⟨kill, same⟩
      have := noKill kill u alive same ne
      rw [inside] at this
      cases this

/-- A thread that was blocked and is no longer in the list is ready inside `handle_wait`. -/
theorem onTheWay_of_woken {s' : State} (inv : Inv s) {u : Nat} (mem : u ∈ s.waiting)
    (gone : u ∉ s'.waiting) (alive : s'.alive u = s.alive u) (pc : s'.pc u = s.pc u)
    (proc : s'.proc u = p) : s'.OnTheWay p := by
  obtain ⟨aliveU, place⟩ := inv.blocked u mem
  refine ⟨u, ⟨by rw [alive, aliveU], gone⟩, proc, ?_⟩
  rw [pc, place]
  rfl

/-- The last step of `handle_wait` leaves no process of its two without a thread on its way. -/
theorem onTheWay_wake (inv : Inv s) (run : s.Runnable t)
    (which : s.proc t = p ∨ p = init) (mem : w ∈ (s.wake t).waiting) (proc : s.proc w = p) :
    (s.wake t).OnTheWay p := by
  have sub := s.wakeOne_sublist (s.proc t)
  have sub' := (s.wakeOne (s.proc t)).wakeOne_sublist init
  have ne_t : ∀ u ∈ s.waiting, u ≠ t := by
    rintro u hu rfl
    exact run.2 hu
  rcases which with own | rfl
  · obtain ⟨u, hu, procU, woken⟩ :=
      wakeOne_wakes inv.waiting_nodup (sub'.subset mem) (proc.trans own.symm)
    exact onTheWay_of_woken inv hu (fun h => woken (sub'.subset h)) (by simp [wake, goto])
      (by simp [wake, goto, ne_t u hu]) (by simp [wake, goto, procU, own])
  · obtain ⟨u, hu, procU, woken⟩ := wakeOne_wakes (s := s.wakeOne (s.proc t))
      (inv.waiting_nodup.sublist sub) mem (by simpa using proc)
    have hu' := sub.subset hu
    exact onTheWay_of_woken inv hu' woken (by simp [wake, goto])
      (by simp [wake, goto, ne_t u hu']) (by simpa [wake, goto] using procU)

/-- The last thread of a process wakes a waiter of the process that lists it, or a
thread that corrects its parent pointer is there to do so. -/
theorem served_vanishAct (inv : Inv s) (run : s.Runnable t) {n : Nat}
    (hpc : s.pc t = .vanishAct n)
    (alone : ∀ u, s.alive u = true → s.proc u = s.proc t → u = t)
    (listed : s.proc t ∈ s.children p) (mem : w ∈ (s.vanishAct t n).waiting)
    (proc : s.proc w = p) : (s.vanishAct t n).Served p := by
  have one : n = 1 := by
    have here := inv.here t run.1
    rw [hpc] at here
    rw [here]
    exact inv.aliveCount_of_alone run.1 alone
  simp only [vanishAct, one, if_true] at mem ⊢
  rcases inv.parents _ p listed with parent | ⟨rfl, u, todo, alive, at', -⟩
  · obtain ⟨u, hu, procU, woken⟩ := wakeOne_wakes inv.waiting_nodup mem (proc.trans parent.symm)
    have ne : u ≠ t := by
      rintro rfl
      exact run.2 hu
    exact Or.inl (onTheWay_of_woken inv hu woken (by simp [ne]) (by simp)
      (by simpa [parent] using procU))
  · have ne : u ≠ t := by
      rintro rfl
      simp [hpc] at at'
    exact Or.inr ⟨rfl, u, by simp [ne, alive], by simp [at', Pc.pastReap]⟩

/-- A waiter stays a thread of its process. -/
theorem proc_waiter (inv : Inv s) (run : s.Runnable t) (mem : w ∈ (s.next t choice).waiting) :
    (s.next t choice).proc w = s.proc w := by
  rcases next_waiting mem with old | ⟨rfl, -⟩
  · have ne : w ≠ t := by
      rintro rfl
      exact run.2 old
    exact (next_other _ inv ne (inv.blocked w old).1).1
  · exact (next_self _ inv run.1).1

/-- Every waiter of a process with an exited child is served. -/
def AllServed (s : State) : Prop :=
  ∀ p c w, c ∈ s.children p → ¬ s.Live c → w ∈ s.waiting → s.proc w = p → s.Served p

theorem AllServed.next (inv : Inv s) (run : s.Runnable t) (spares : Spares s (t, choice))
    (all : s.AllServed) : (s.next t choice).AllServed := by
  intro p c w listed dead mem proc
  have procW : s.proc w = p := (proc_waiter inv run mem).symm.trans proc
  -- The child was there before, the orphans just came, or it was made just now.
  rcases next_children inv run listed with old | ⟨rfl, d, splice⟩ | live
  · by_cases live : s.Live c
    · -- Its last thread has just ended.
      rcases live_next choice inv run.1 live with live' | ⟨⟨n, ends⟩, rfl, alone⟩
      · exact absurd live' dead
      · have eq : s.next t choice = s.vanishAct t n := by simp [State.next, ends]
        rw [eq] at mem ⊢
        exact served_vanishAct inv run ends alone old mem procW
    · have scanned : ¬ (s.proc t = p ∧ ∃ locked, s.pc t = .scan locked []) := by
        rintro ⟨rfl, locked, block⟩
        have here := inv.here t run.1
        rw [block] at here
        obtain ⟨list, -, all⟩ := here
        rw [List.append_nil] at list
        exact live (all c (by rwa [← list]))
      have served : s.Served p := by
        rcases next_waiting mem with waits | ⟨rfl, block⟩
        · exact all p c w old live waits procW
        · exact absurd ⟨procW, block⟩ scanned
      rcases served.next choice inv run spares with h | ⟨own, block | none⟩ | ⟨wake, which⟩
      · exact h
      · exact absurd ⟨own, block⟩ scanned
      · rw [none] at old
        cases old
      · have eq : s.next t choice = s.wake t := by simp [State.next, wake]
        rw [eq] at mem ⊢
        exact Or.inl (onTheWay_wake inv run which mem procW)
  · have eq : s.next t choice = s.splice t d := by simp [State.next, splice]
    rw [eq]
    exact Or.inr ⟨rfl, t, by simp [State.splice, run.1], by simp [State.splice, Pc.pastReap]⟩
  · exact absurd live dead

end State

theorem allServed_boot : boot.AllServed := by
  intro p c w _ _ mem
  simp [boot] at mem

theorem noLostWakeup_of_allServed {s : State} (all : s.AllServed) : NoLostWakeup s := by
  rintro p ⟨c, listed, dead⟩ ⟨w, mem, proc⟩
  rcases all p c w listed dead mem proc with h | ⟨-, h⟩
  · exact Or.inl h
  · exact Or.inr h

/-- No lost wake-up in a run that kills no thread inside `handle_wait`. -/
theorem no_lost_wakeup (is : List (Nat × Choice)) (spared : StepsMeet step Spares boot is) :
    Along step NoLostWakeup boot is := by
  refine along_of_stepsMeet (I := fun s => Inv s ∧ s.AllServed)
    (fun s h => noLostWakeup_of_allServed h.2) ?_ ⟨inv_boot, allServed_boot⟩ spared
  rintro s ⟨t, choice⟩ ⟨inv, all⟩ spares
  refine ⟨inv.step _, ?_⟩
  unfold step
  split
  · rename_i run
    exact all.next inv run spares
  · exact all

/-- `init` forks and makes a second thread, both of its threads call `wait` and block,
and the child exits. -/
def twoWaiters : List (Nat × Choice) :=
  [(1, .fork), (1, .threadFork)] ++ List.replicate 6 (1, .wait) ++ List.replicate 6 (3, .wait) ++
    List.replicate 4 (2, .vanish)

/-- Thread 3 of `init` is blocked, process 2 has just exited, and thread 1, which it
woke, is on its way. -/
theorem no_lost_wakeup_two_waiters :
    (let s := run step boot twoWaiters;
      2 ∈ s.children init ∧ s.aliveCount 2 = 0 ∧ 3 ∈ s.waiting ∧ s.proc 3 = init) ∧
      Along step NoLostWakeup boot twoWaiters := by
  refine ⟨by decide +kernel, no_lost_wakeup twoWaiters ?_⟩
  refine StepsMeet.mono (C := fun s i => s.pc i.1 ≠ .kill ∧ i.2 ≠ .fault) ?_ (by decide +kernel)
  rintro s i ⟨noKill, noFault⟩ -
  exact ⟨fun h => absurd h noKill, fun _ => noFault⟩

/-! ### Waiters of a process without children -/

/-- A process without children and with a blocked thread has a thread on its way. -/
def Drained (s : State) : Prop :=
  ∀ p, s.children p = [] → (∃ w ∈ s.waiting, s.proc w = p) → s.OnTheWay p

/-- A thread that returns -1, or that a fault ends at the store of the status word,
leaves no blocked thread behind without another one on its way. -/
def LeavesNone (s : State) (i : Nat × Choice) : Prop :=
  s.Runnable i.1 → (s.pc i.1 = .waitCheck ∨ (s.pc i.1 = .free ∧ i.2 = .fault)) →
    s.children (s.proc i.1) = [] → (∃ w ∈ s.waiting, s.proc w = s.proc i.1) →
    ∃ u, u ≠ i.1 ∧ s.Runnable u ∧ s.proc u = s.proc i.1 ∧ (s.pc u).inWait = true

namespace State

variable {s : State} {t w p : Nat} {choice : Choice}

/-- Only the two steps that take children out leave a list empty. -/
theorem next_children_nil (inv : Inv s) (run : s.Runnable t)
    (none : (s.next t choice).children p = []) :
    s.children p = [] ∨ (∃ c, s.pc t = .detach c ∧ s.proc t = p) ∨ s.pc t = .splice p := by
  revert none
  have effect := s.next_effect t choice
  generalize s.next t choice = s' at effect ⊢
  cases effect with
  | plain | block | kill => exact Or.inl
  | fork place one =>
    simp only [State.fork, one, if_true]
    intro none
    by_cases hp : p = s.proc t
    · subst hp
      simp at none
    · exact Or.inl (by simpa [hp] using none)
  | threadFork place free =>
    simp only [State.threadFork, free, if_true]
    exact Or.inl
  | detach d place =>
    intro none
    by_cases hp : p = s.proc t
    · exact Or.inr (Or.inl ⟨d, place, hp.symm⟩)
    · exact Or.inl (by simpa [detach, hp] using none)
  | splice d place =>
    rw [inv.splice_children run place]
    intro none
    split at none
    · rename_i hp
      exact Or.inr (Or.inr (by rw [hp, place]))
    · split at none
      · rename_i hp
        subst hp
        exact Or.inl (List.append_eq_nil_iff.mp none).1
      · exact Or.inl none
  | wake place => exact fun none => Or.inl (by simpa [wake, goto] using none)
  | vanishAct n place =>
    simp only [vanishAct]
    split
    · exact fun none => Or.inl (by simpa using none)
    · exact Or.inl

/-- Another thread on its way stays so, where the step is not `kill`. -/
theorem onTheWay_of_other (inv : Inv s) (noKill : s.pc t ≠ .kill) {u : Nat} (ne : u ≠ t)
    (run : s.Runnable u) (proc : s.proc u = p) (inside : (s.pc u).inWait = true) :
    (s.next t choice).OnTheWay p := by
  obtain ⟨proc', pc', awake, alive⟩ := next_other choice inv ne run.1
  refine ⟨u, ⟨alive fun h => noKill h.1, awake run.2⟩, proc'.trans proc, ?_⟩
  rw [pc']
  exact inside

theorem drained_next (inv : Inv s) (run : s.Runnable t) (leaves : LeavesNone s (t, choice))
    (drained : Drained s) : Drained (s.next t choice) := by
  rintro p none ⟨w, mem, proc⟩
  have procW : s.proc w = p := (proc_waiter inv run mem).symm.trans proc
  have notBlock : s.children p = [] → ¬ (s.proc t = p ∧ ∃ locked, s.pc t = .scan locked []) := by
    rintro empty ⟨rfl, locked, block⟩
    have here := inv.here t run.1
    rw [block] at here
    rw [here.1] at empty
    exact here.2.1 empty
  rcases next_children_nil inv run none with empty | ⟨c, detach, own⟩ | splice
  · have waits : w ∈ s.waiting := by
      rcases next_waiting mem with waits | ⟨rfl, block⟩
      · exact waits
      · exact absurd ⟨procW, block⟩ (notBlock empty)
    have way := drained p empty ⟨w, waits, procW⟩
    rcases way.next choice inv run with
      h | ⟨own, block | ⟨check, -⟩ | wake | fault⟩ | ⟨kill, own, -⟩
    · exact h
    · exact absurd ⟨own, block⟩ (notBlock empty)
    · subst own
      obtain ⟨u, ne, runU, procU, inside⟩ :=
        leaves run (Or.inl check) empty ⟨w, waits, procW⟩
      exact onTheWay_of_other inv (by simp [check]) ne runU procU inside
    · have eq : s.next t choice = s.wake t := by simp [State.next, wake]
      rw [eq] at mem ⊢
      exact onTheWay_wake inv run (Or.inl own) mem procW
    · subst own
      obtain ⟨u, ne, runU, procU, inside⟩ :=
        leaves run (Or.inr fault) empty ⟨w, waits, procW⟩
      exact onTheWay_of_other inv (by simp [fault.1]) ne runU procU inside
    · -- All siblings end, the blocked ones included.
      have eq : s.next t choice = s.kill t := by simp [State.next, kill]
      rw [eq] at mem
      have other := (List.mem_filter.mp mem).2
      simp [procW, own] at other
  · have inside : (s.pc t).inWait = true := by simp [detach, Pc.inWait]
    rcases next_inWait choice run inside with ⟨run', inside', -⟩ | leave
    · exact ⟨t, run', (next_self _ inv run.1).1.trans own, inside'⟩
    · simp [detach] at leave
  · have eq : s.next t choice = s.splice t p := by simp [State.next, splice]
    have here := inv.here t run.1
    rw [splice] at here
    rw [eq] at mem
    exact absurd ⟨w, (inv.blocked w mem).1, procW⟩ (inv.gone_known p here.1).2

/-- A step after which the process is still drained left nobody behind. -/
theorem leavesNone_of_drained (inv : Inv s) (drained : Drained (step s (t, choice))) :
    LeavesNone s (t, choice) := by
  intro run place empty blocked
  dsimp only at run place empty blocked
  have after : step s (t, choice) = s.next t choice := by simp [step, run]
  rw [after] at drained
  have same : (s.next t choice).children = s.children ∧ (s.next t choice).waiting = s.waiting ∧
      (s.next t choice).alive = s.alive ∧ (s.next t choice).proc = s.proc ∧
      ((s.next t choice).pc t).inWait = false := by
    rcases place with check | ⟨free, rfl⟩
    · simp [State.next, check, empty, goto, release, Pc.inWait]
    · simp [State.next, free, goto, Pc.inWait]
  obtain ⟨children, waiting, alive, proc, outside⟩ := same
  obtain ⟨w, mem, procW⟩ := blocked
  have := drained (s.proc t) (by rw [children, empty]) ⟨w, by rw [waiting]; exact mem, by
    rw [proc]; exact procW⟩
  obtain ⟨u, runU, procU, inside⟩ := this
  have ne : u ≠ t := by
    rintro rfl
    rw [outside] at inside
    cases inside
  rw [Runnable, alive, waiting] at runU
  rw [proc] at procU
  refine ⟨u, ne, runU, procU, ?_⟩
  rw [(next_other _ inv ne runU.1).2.1] at inside
  exact inside

end State

/-- Every state of a run is drained exactly when no thread leaves `handle_wait` with -1,
or by a fault, while a sibling is blocked and none is on its way. -/
theorem waiters_drain_iff (is : List (Nat × Choice)) :
    Along step Drained boot is ↔ StepsMeet step LeavesNone boot is := by
  constructor
  · intro drained
    have both : Along step (fun s => Inv s ∧ Drained s) boot is :=
      drained.and (along_of_invariant (fun s i inv => inv.step i) inv_boot is)
    exact stepsMeet_of_along (fun s i h h' => State.leavesNone_of_drained h.1 h'.2) both
  · intro leaves
    have start : Drained boot := by
      rintro p - ⟨w, mem, -⟩
      simp [boot] at mem
    refine along_of_stepsMeet (I := fun s => Inv s ∧ Drained s) (fun s h => h.2) ?_
      ⟨inv_boot, start⟩ leaves
    rintro s ⟨t, choice⟩ ⟨inv, drained⟩ leaves
    refine ⟨inv.step _, ?_⟩
    unfold step
    split
    · rename_i run
      exact State.drained_next inv run leaves drained
    · exact drained

/-- Process 2 has three threads that wait and one child, which exits. The first thread
reaps it and wakes the second, which finds no child and returns -1. -/
def threeWaiters : List (Nat × Choice) :=
  [(1, .fork), (2, .fork), (2, .threadFork), (2, .threadFork)] ++
    List.replicate 6 (2, .wait) ++ List.replicate 6 (4, .wait) ++ List.replicate 6 (5, .wait) ++
    List.replicate 4 (3, .vanish) ++ List.replicate 14 (2, .wait) ++ List.replicate 2 (4, .wait)

theorem third_waiter_stays : ¬ Drained (run step boot threeWaiters) := by
  have inv : Inv (run step boot threeWaiters) := run_invariant (fun s i inv => inv.step i) inv_boot _
  intro drained
  have empty : (run step boot threeWaiters).children 2 = [] := by decide +kernel
  have blocked : 5 ∈ (run step boot threeWaiters).waiting ∧
      (run step boot threeWaiters).proc 5 = 2 := by decide +kernel
  obtain ⟨u, runU, procU, inside⟩ := drained 2 empty ⟨5, blocked⟩
  have lt := (inv.known u runU.1).1
  have none : ∀ u < (run step boot threeWaiters).threadCount,
      ¬ ((run step boot threeWaiters).Runnable u ∧ (run step boot threeWaiters).proc u = 2 ∧
        ((run step boot threeWaiters).pc u).inWait = true) := by decide +kernel
  exact none u lt ⟨runU, procU, inside⟩

/-! ### The last thread of a process -/

/-- A thread of process `p` takes the last-thread branch of `handle_vanish`. -/
def LastBranch (p : Nat) (s : State) (i : Nat × Choice) : Prop :=
  s.Runnable i.1 ∧ s.proc i.1 = p ∧ s.pc i.1 = .vanishAct 1

instance (p : Nat) (s : State) (i : Nat × Choice) : Decidable (LastBranch p s i) :=
  inferInstanceAs (Decidable (_ ∧ _))

/-- How many times a run takes the last-thread branch for process `p`. -/
def lastBranches (p : Nat) : State → List (Nat × Choice) → Nat
  | _, [] => 0
  | s, i :: is => (if LastBranch p s i then 1 else 0) + lastBranches p (step s i) is

/-- A step that leaves process `p` without threads takes the last-thread branch, and one
that takes it finds all other threads of `p` terminated. -/
def EndsOnce (p : Nat) (s : State) (i : Nat × Choice) : Prop :=
  (s.Live p → ¬ (step s i).Live p → LastBranch p s i) ∧
    (LastBranch p s i → ∀ u, u ≠ i.1 → s.proc u = p → s.alive u = false)

theorem endsOnce {s : State} (inv : Inv s) (p : Nat) (i : Nat × Choice) : EndsOnce p s i := by
  obtain ⟨t, choice⟩ := i
  constructor
  · intro live dead
    by_cases run : s.Runnable t
    · have after : step s (t, choice) = s.next t choice := by simp [step, run]
      rw [after] at dead
      rcases State.live_next choice inv run.1 live with h | ⟨⟨n, ends⟩, rfl, alone⟩
      · exact absurd h dead
      · have here := inv.here t run.1
        rw [ends] at here
        have one : n = 1 := Eq.trans here (inv.aliveCount_of_alone run.1 alone)
        exact ⟨run, rfl, by rw [ends, one]⟩
    · have after : step s (t, choice) = s := by simp [step, run]
      rw [after] at dead
      exact absurd live dead
  · rintro ⟨run, proc, ends⟩ u ne procU
    dsimp only at run proc ends ne
    have here := inv.here t run.1
    rw [ends] at here
    by_contra alive
    refine ne (inv.alone_of_aliveCount run.1 (Eq.symm here) (by simpa using alive) ?_)
    rw [procU, proc]

/-- A process without alive threads gets none. -/
theorem not_live_step {s : State} {p : Nat} (known : p < s.procCount) (dead : ¬ s.Live p)
    (i : Nat × Choice) : ¬ (step s i).Live p := by
  unfold step
  split
  swap
  · exact dead
  rename_i run
  rintro ⟨u, alive, proc⟩
  rcases State.alive_of_next alive with ⟨alive', same⟩ | own | new
  · exact dead ⟨u, alive', same.symm.trans proc⟩
  · exact dead ⟨i.1, run.1, own.symm.trans proc⟩
  · omega

theorem procCount_le_step (s : State) (i : Nat × Choice) : s.procCount ≤ (step s i).procCount := by
  unfold step
  split
  swap
  · exact Nat.le_refl _
  have effect := s.next_effect i.1 i.2
  generalize s.next i.1 i.2 = s' at effect ⊢
  cases effect with
  | plain | block | detach | splice | kill => exact Nat.le_refl _
  | fork place one => simp [State.fork, one]
  | threadFork place free => simp [State.threadFork, free]
  | wake place => simp [State.wake, State.goto]
  | vanishAct n place =>
    simp only [State.vanishAct]
    split <;> simp

theorem lastBranches_dead (p : Nat) (is : List (Nat × Choice)) {s : State}
    (known : p < s.procCount) (dead : ¬ s.Live p) : lastBranches p s is = 0 := by
  induction is generalizing s with
  | nil => rfl
  | cons i is ih =>
    have not : ¬ LastBranch p s i := fun h => dead ⟨i.1, h.1.1, h.2.1⟩
    have more := procCount_le_step s i
    rw [lastBranches, if_neg not, ih (by omega) (not_live_step known dead i)]

theorem lastBranches_le_one (p : Nat) (is : List (Nat × Choice)) {s : State} (inv : Inv s) :
    lastBranches p s is ≤ 1 := by
  induction is generalizing s with
  | nil => exact Nat.zero_le _
  | cons i is ih =>
    by_cases last : LastBranch p s i
    · -- Nobody is left, so the branch is not taken again.
      have others := (endsOnce inv p i).2 last
      obtain ⟨run, proc, ends⟩ := last
      have dead : ¬ (step s i).Live p := by
        rintro ⟨u, alive, procU⟩
        have after : step s i = s.vanishAct i.1 1 := by simp [step, run, State.next, ends]
        rw [after] at alive procU
        simp only [State.vanishAct, if_true, State.wakeOne_alive, State.wakeOne_proc] at alive procU
        by_cases ne : u = i.1
        · simp [ne] at alive
        · rw [Function.update_of_ne ne, others u ne procU] at alive
          cases alive
      have known : p < s.procCount := by
        rw [← proc]
        exact (inv.known i.1 run.1).2
      have more := procCount_le_step s i
      rw [lastBranches, lastBranches_dead p is (by omega) dead]
      split <;> omega
    · rw [lastBranches, if_neg last, Nat.zero_add]
      exact ih (inv.step i)

/-- In every run, a process runs out of threads only by the last-thread branch, which is
taken at most once and when all its other threads are terminated. -/
theorem last_thread (p : Nat) (is : List (Nat × Choice)) :
    StepsMeet step (EndsOnce p) boot is ∧ lastBranches p boot is ≤ 1 := by
  constructor
  · exact stepsMeet_of_along (P := Inv) (fun s i inv _ => endsOnce inv p i)
      (along_of_invariant (fun s i inv => inv.step i) inv_boot is)
  · exact lastBranches_le_one p is inv_boot

end OsKernel.Exit
