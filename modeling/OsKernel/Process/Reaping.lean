/-
What the locks of `handle_wait`, `handle_vanish` and `handle_task_vanish` protect.

`Inv` is kept by every step of every thread:

* a thread holds the locks its place in the code says (`held`), and what it learnt
  under them is still so (`here`);
* the lists of children are disjoint, list no child that was taken out, and a child
  has a larger number than the process that lists it (`listed`);
* a process that was not taken out is in the list of one that was not, or of one
  whose orphans are about to be handed over (`owned`);
* a parent pointer is out of date only while a thread is in the loop that corrects
  it (`parents`).

Together they show that `init` has a child when another process hands orphans over
(`Inv.init_children`), so that the orphans reach the list of `init`.
-/

import OsKernel.Process.Exit
import Mathlib.Data.List.Nodup
import Mathlib.Data.List.Perm.Subperm

namespace OsKernel.Exit

/-- The locks that a thread of process `p` holds. -/
def Pc.holds (p : Nat) : Pc → List Nat
  | .waitCheck | .detach _ | .lockInit _ | .unlockOwn => [p]
  | .vanishCount | .vanishAct _ | .kill | .killUnlock => [p]
  | .scan locked _ => p :: locked
  | .count locked c _ => p :: (locked ++ [c])
  | .unlockFound todo _ => p :: todo
  | .splice _ | .reparent _ | .unlockInit => [p, init]
  | .user | .waitLock | .free | .wake | .vanishLock | .killLock => []

/-- Process `c` was taken out of the list of its parent and still lists its orphans. -/
def Pc.hands (c : Nat) (pc : Pc) : Prop := pc = .lockInit c ∨ pc = .splice c

namespace State

/-- Some thread of the process is alive. -/
def Live (s : State) (p : Nat) : Prop := ∃ u, s.alive u = true ∧ s.proc u = p

/-- What thread `t` knows at `pc`. -/
def At (s : State) (t : Nat) : Pc → Prop
  | .scan locked rest =>
      s.children (s.proc t) = locked ++ rest ∧ locked ++ rest ≠ [] ∧ ∀ c ∈ locked, s.Live c
  | .count locked c rest =>
      s.children (s.proc t) = locked ++ c :: rest ∧ ∀ d ∈ locked, s.Live d
  | .unlockFound todo c =>
      c ∈ s.children (s.proc t) ∧ ¬ s.Live c ∧ (s.proc t :: todo).Nodup
  | .detach c => c ∈ s.children (s.proc t) ∧ ¬ s.Live c
  | .lockInit c => s.gone c = true ∧ s.proc t < c ∧ s.proc t ≠ init
  | .splice c => s.gone c = true ∧ s.proc t < c
  | .reparent todo => ∀ x ∈ todo, x ∈ s.children init
  | .unlockInit => s.proc t ≠ init
  | .vanishAct n => n = s.aliveCount (s.proc t)
  | _ => True

end State

/-- The lists of children and the parent pointers. -/
structure Tree (s : State) : Prop where
  children_nodup : ∀ q, (s.children q).Nodup
  listed : ∀ p q, p ∈ s.children q → q < p ∧ p < s.procCount ∧ s.gone p = false
  once : ∀ p q r, p ∈ s.children q → p ∈ s.children r → q = r
  first : s.children root = [init]
  gone_known : ∀ p, s.gone p = true → p < s.procCount ∧ ¬ s.Live p
  owned : ∀ p, p ≠ root → p < s.procCount → s.gone p = false →
    ∃ q, p ∈ s.children q ∧
      (s.gone q = false ∨ ∃ u, s.alive u = true ∧ (s.pc u).hands q)
  parents : ∀ p q, p ∈ s.children q → s.parent p = q ∨
    (q = init ∧ ∃ u todo, s.alive u = true ∧ s.pc u = .reparent todo ∧ p ∈ todo)

structure Inv (s : State) : Prop extends Tree s where
  known : ∀ t, s.alive t = true → t < s.threadCount ∧ s.proc t < s.procCount
  blocked : ∀ t ∈ s.waiting, s.alive t = true ∧ s.pc t = .waitLock
  waiting_nodup : s.waiting.Nodup
  idle : ∀ t, s.alive t = true → s.proc t = root → s.pc t = .user
  held : ∀ t, s.alive t = true → ∀ l ∈ (s.pc t).holds (s.proc t), s.lock l = some t
  here : ∀ t, s.alive t = true → s.At t (s.pc t)

theorem inv_boot : Inv boot where
  known t h := by simp_all [boot]
  blocked t h := by simp [boot] at h
  waiting_nodup := List.nodup_nil
  idle t _ _ := rfl
  held t _ l h := by simp [boot, Pc.holds] at h
  here t _ := trivial
  children_nodup q := by by_cases h : q = root <;> simp [boot, h]
  listed p q h := by
    by_cases hq : q = root
    · subst hq
      simp_all [boot, root, init]
    · simp [boot, hq] at h
  once p q r hq hr := by
    by_cases hq' : q = root <;> by_cases hr' : r = root <;> simp_all [boot]
  first := by simp [boot]
  gone_known p h := by simp [boot] at h
  owned p hp hlt _ := by
    have hp1 : p = init := by simp only [boot, root, init] at *; omega
    exact ⟨root, by simp [boot, hp1], Or.inl rfl⟩
  parents p q h := by
    by_cases hq : q = root
    · exact Or.inl (by simp [boot, hq])
    · simp [boot, hq] at h

/-! ### Counting alive threads -/

namespace State

variable {s : State}

theorem mem_aliveCount {t p : Nat} :
    t ∈ ((List.range s.threadCount).filter fun t => s.alive t && s.proc t = p) ↔
      t < s.threadCount ∧ s.alive t = true ∧ s.proc t = p := by simp

theorem nodup_aliveCount (p : Nat) :
    ((List.range s.threadCount).filter fun t => s.alive t && s.proc t = p).Nodup :=
  List.nodup_range.filter _

end State

namespace Inv

variable {s : State} (inv : Inv s)

include inv

theorem aliveCount_eq_zero {p : Nat} : s.aliveCount p = 0 ↔ ¬ s.Live p := by
  rw [State.aliveCount, List.length_eq_zero_iff, List.eq_nil_iff_forall_not_mem]
  constructor
  · rintro none ⟨u, alive, rfl⟩
    exact none u (State.mem_aliveCount.mpr ⟨(inv.known u alive).1, alive, rfl⟩)
  · intro dead u mem
    obtain ⟨-, alive, proc⟩ := State.mem_aliveCount.mp mem
    exact dead ⟨u, alive, proc⟩

/-- A process with one alive thread has no other. -/
theorem alone_of_aliveCount {t u : Nat} (alive : s.alive t = true) (one : s.aliveCount (s.proc t) = 1)
    (aliveU : s.alive u = true) (same : s.proc u = s.proc t) : u = t := by
  obtain ⟨x, only⟩ := List.length_eq_one_iff.mp one
  have mem : ∀ v, s.alive v = true → s.proc v = s.proc t → v = x := by
    intro v aliveV sameV
    have := State.mem_aliveCount.mpr ⟨(inv.known v aliveV).1, aliveV, sameV⟩
    rw [only] at this
    simpa using this
  rw [mem u aliveU same, mem t alive rfl]

theorem aliveCount_of_alone {t : Nat} (alive : s.alive t = true)
    (alone : ∀ u, s.alive u = true → s.proc u = s.proc t → u = t) :
    s.aliveCount (s.proc t) = 1 := by
  have perm : ((List.range s.threadCount).filter fun u => s.alive u && s.proc u = s.proc t).Perm
      [t] := by
    rw [List.perm_ext_iff_of_nodup (State.nodup_aliveCount _) (List.nodup_singleton t)]
    intro u
    rw [State.mem_aliveCount, List.mem_singleton]
    constructor
    · rintro ⟨-, aliveU, same⟩
      exact alone u aliveU same
    · rintro rfl
      exact ⟨(inv.known u alive).1, alive, rfl⟩
  exact perm.length_eq

theorem not_gone {t : Nat} (alive : s.alive t = true) : s.gone (s.proc t) = false := by
  by_contra h
  exact (inv.gone_known _ (by simpa using h)).2 ⟨t, alive, rfl⟩

/-- Two threads that hold one lock are one thread. -/
theorem holder_unique {t u l : Nat} (alive : s.alive t = true) (aliveU : s.alive u = true)
    (ht : l ∈ (s.pc t).holds (s.proc t)) (hu : l ∈ (s.pc u).holds (s.proc u)) : u = t := by
  have := inv.held t alive l ht
  rw [inv.held u aliveU l hu] at this
  exact Option.some.inj this

/-- `unlock_children` starts with the locks that the scan took, each of them once. -/
theorem nodup_found {t : Nat} {locked rest : List Nat} {c : Nat}
    (list : s.children (s.proc t) = locked ++ c :: rest) :
    (s.proc t :: (locked ++ [c])).Nodup := by
  rw [List.nodup_cons]
  constructor
  · intro mem
    have : s.proc t ∈ s.children (s.proc t) := by
      rw [list]
      rcases List.mem_append.mp mem with h | h
      · exact List.mem_append_left _ h
      · rw [List.mem_singleton.mp h]
        simp
    exact Nat.lt_irrefl _ (inv.listed _ _ this).1
  · have := inv.children_nodup (s.proc t)
    rw [list, List.append_cons] at this
    exact this.of_append_left

theorem init_mem_root : init ∈ s.children root := by simp [inv.first]

theorem init_not_gone : s.gone init = false := (inv.listed _ _ inv.init_mem_root).2.2

end Inv

/-! ### Steps that change no list of children -/

/-- What all steps but `fork`, `thread_fork` and the hand-over of orphans leave as it is. -/
structure Same (s s' : State) : Prop where
  threadCount : s'.threadCount = s.threadCount
  procCount : s'.procCount = s.procCount
  proc : s'.proc = s.proc
  children : s'.children = s.children
  parent : s'.parent = s.parent
  gone : s'.gone = s.gone

/-- A step that takes thread `t` to `pc`, changes locks that are free or that `t` holds,
and ends threads of the process of `t` only under the lock of that process. -/
structure Move (s : State) (t : Nat) (pc : Pc) (s' : State) : Prop extends Same s s' where
  pc_eq : s'.pc = Function.update s.pc t pc
  ends : ∀ u, s'.alive u = true → s.alive u = true
  ended : ∀ u, s.alive u = true → s'.alive u = false →
    s.proc u = s.proc t ∧ s.proc t ∈ (s.pc t).holds (s.proc t)
  locks : ∀ l u, u ≠ t → s.lock l = some u → s'.lock l = some u
  held : s'.alive t = true → ∀ l ∈ pc.holds (s.proc t), s'.lock l = some t
  here : s'.alive t = true → s'.At t pc
  idle : s.proc t ≠ root
  blocked : ∀ u ∈ s'.waiting, s'.alive u = true ∧ s'.pc u = .waitLock
  waiting_nodup : s'.waiting.Nodup
  hands : ∀ c, (s.pc t).hands c → s'.alive t = true ∧ pc.hands c
  todo : ∀ todo, s.pc t = .reparent todo → todo = []

namespace Move

variable {s s' : State} {t u : Nat} {pc : Pc}

theorem pc_self (m : Move s t pc s') : s'.pc t = pc := by simp [m.pc_eq]

theorem pc_other (m : Move s t pc s') (ne : u ≠ t) : s'.pc u = s.pc u := by simp [m.pc_eq, ne]

/-- A process whose lock another thread holds loses no thread. -/
theorem alive_other (m : Move s t pc s') (inv : Inv s) (aliveT : s.alive t = true)
    (ne : u ≠ t) (alive : s.alive u = true) {v : Nat} (aliveV : s.alive v = true)
    (hold : s.proc v ∈ (s.pc u).holds (s.proc u)) : s'.alive v = true := by
  by_contra dead
  obtain ⟨same, holdT⟩ := m.ended v aliveV (by simpa using dead)
  rw [same] at hold
  exact ne (inv.holder_unique aliveT alive holdT hold)

theorem live_of_live (m : Move s t pc s') {c : Nat} : s'.Live c → s.Live c := by
  rintro ⟨v, alive, proc⟩
  rw [m.proc] at proc
  exact ⟨v, m.ends v alive, proc⟩

theorem live_other (m : Move s t pc s') (inv : Inv s) (aliveT : s.alive t = true)
    (ne : u ≠ t) (alive : s.alive u = true) {c : Nat} (live : s.Live c)
    (hold : c ∈ (s.pc u).holds (s.proc u)) : s'.Live c := by
  obtain ⟨v, aliveV, rfl⟩ := live
  refine ⟨v, m.alive_other inv aliveT ne alive aliveV hold, ?_⟩
  rw [m.proc]

theorem aliveCount_other (m : Move s t pc s') (inv : Inv s) (aliveT : s.alive t = true)
    (ne : u ≠ t) (alive : s.alive u = true) (hold : s.proc u ∈ (s.pc u).holds (s.proc u)) :
    s'.aliveCount (s.proc u) = s.aliveCount (s.proc u) := by
  unfold State.aliveCount
  rw [m.threadCount, m.proc]
  congr 1
  apply List.filter_congr
  intro v _
  by_cases same : s.proc v = s.proc u
  · cases aliveV : s.alive v with
    | true => simp [same, m.alive_other inv aliveT ne alive aliveV (same ▸ hold)]
    | false =>
      have : s'.alive v = false := by
        by_contra h
        simp [m.ends v (by simpa using h)] at aliveV
      simp [this]
  · simp [same]

/-- What another thread knows stays so. -/
theorem at_other (m : Move s t pc s') (inv : Inv s) (aliveT : s.alive t = true) (ne : u ≠ t)
    (alive : s.alive u = true) : s'.At u (s.pc u) := by
  have old := inv.here u alive
  have live := fun c => m.live_other inv aliveT ne alive (c := c)
  have count := m.aliveCount_other inv aliveT ne alive
  cases hpc : s.pc u with
  | scan locked rest =>
    rw [hpc] at old live
    refine ⟨by rw [m.proc, m.children]; exact old.1, old.2.1, fun c hc => ?_⟩
    exact live c (old.2.2 c hc) (List.mem_cons_of_mem _ hc)
  | count locked d rest =>
    rw [hpc] at old live
    refine ⟨by rw [m.proc, m.children]; exact old.1, fun c hc => ?_⟩
    exact live c (old.2 c hc) (List.mem_cons_of_mem _ (List.mem_append_left _ hc))
  | unlockFound todo d =>
    rw [hpc] at old
    refine ⟨?_, fun h => old.2.1 (m.live_of_live h), ?_⟩
    · rw [m.proc, m.children]
      exact old.1
    · rw [m.proc]
      exact old.2.2
  | detach d =>
    rw [hpc] at old
    refine ⟨?_, fun h => old.2 (m.live_of_live h)⟩
    rw [m.proc, m.children]
    exact old.1
  | vanishAct n =>
    rw [hpc] at old count
    change n = _
    rw [m.proc, count List.mem_cons_self]
    exact old
  | lockInit c | splice c =>
    rw [hpc] at old
    simpa only [State.At, m.proc, m.gone] using old
  | reparent todo =>
    rw [hpc] at old
    simpa only [State.At, m.children] using old
  | unlockInit =>
    rw [hpc] at old
    simpa only [State.At, m.proc] using old
  | _ => trivial

end Move

theorem Inv.move {s s' : State} {t : Nat} (inv : Inv s) (pc : Pc) (aliveT : s.alive t = true)
    (m : Move s t pc s') : Inv s' where
  known u alive := by
    rw [m.threadCount, m.proc, m.procCount]
    exact inv.known u (m.ends u alive)
  blocked := m.blocked
  waiting_nodup := m.waiting_nodup
  idle u alive proc := by
    rw [m.proc] at proc
    have ne : u ≠ t := by
      rintro rfl
      exact m.idle proc
    rw [m.pc_other ne]
    exact inv.idle u (m.ends u alive) proc
  held u alive l hl := by
    rw [m.proc] at hl
    by_cases ne : u = t
    · subst ne
      rw [m.pc_self] at hl
      exact m.held alive l hl
    · rw [m.pc_other ne] at hl
      exact m.locks l u ne (inv.held u (m.ends u alive) l hl)
  here u alive := by
    by_cases ne : u = t
    · subst ne
      rw [m.pc_self]
      exact m.here alive
    · rw [m.pc_other ne]
      exact m.at_other inv aliveT ne (m.ends u alive)
  children_nodup q := by
    rw [m.children]
    exact inv.children_nodup q
  listed p q := by
    rw [m.children, m.procCount, m.gone]
    exact inv.listed p q
  once p q r := by
    rw [m.children]
    exact inv.once p q r
  first := by
    rw [m.children]
    exact inv.first
  gone_known p gone := by
    rw [m.gone] at gone
    rw [m.procCount]
    exact ⟨(inv.gone_known p gone).1, fun live => (inv.gone_known p gone).2 (m.live_of_live live)⟩
  owned p ne lt gone := by
    rw [m.procCount] at lt
    rw [m.gone] at gone ⊢
    rw [m.children]
    obtain ⟨q, mem, stays | ⟨u, alive, hands⟩⟩ := inv.owned p ne lt gone
    · exact ⟨q, mem, Or.inl stays⟩
    · refine ⟨q, mem, Or.inr ⟨u, ?_⟩⟩
      by_cases ne : u = t
      · subst ne
        rw [m.pc_self]
        exact m.hands q hands
      · rw [m.pc_other ne]
        refine ⟨m.alive_other inv aliveT ne alive alive ?_, hands⟩
        rcases hands with h | h <;> simp [h, Pc.holds]
  parents p q mem := by
    rw [m.children] at mem
    rw [m.parent]
    rcases inv.parents p q mem with h | ⟨rfl, u, todo, alive, hpc, hp⟩
    · exact Or.inl h
    · refine Or.inr ⟨rfl, u, todo, ?_⟩
      have ne : u ≠ t := by
        rintro rfl
        rw [m.todo todo hpc] at hp
        cases hp
      rw [m.pc_other ne]
      refine ⟨m.alive_other inv aliveT ne alive alive ?_, hpc, hp⟩
      simp [hpc, Pc.holds]

/-- A step that moves one thread and changes locks that are free or its own. -/
theorem Move.of_locks {s : State} {t : Nat} {pc : Pc} {lock : Nat → Option Nat} (inv : Inv s)
    (run : s.Runnable t) (idle : s.proc t ≠ root)
    (locks : ∀ l u, u ≠ t → s.lock l = some u → lock l = some u)
    (held : ∀ l ∈ pc.holds (s.proc t), lock l = some t)
    (here : State.At { s with lock := lock, pc := Function.update s.pc t pc } t pc)
    (hands : ∀ c, (s.pc t).hands c → pc.hands c)
    (todo : ∀ todo, s.pc t = .reparent todo → todo = []) :
    Move s t pc { s with lock := lock, pc := Function.update s.pc t pc } where
  threadCount := rfl
  procCount := rfl
  proc := rfl
  children := rfl
  parent := rfl
  gone := rfl
  pc_eq := rfl
  ends _ alive := alive
  ended u alive dead := by simp [alive] at dead
  locks := locks
  held _ := held
  here _ := here
  idle := idle
  blocked u mem := by
    have ne : u ≠ t := by
      rintro rfl
      exact run.2 mem
    simpa [ne] using inv.blocked u mem
  waiting_nodup := inv.waiting_nodup
  hands c h := ⟨run.1, hands c h⟩
  todo := todo

namespace Inv

variable {s : State} {t : Nat} (inv : Inv s) (run : s.Runnable t)

include inv run

theorem goto {pc : Pc} (idle : s.proc t ≠ root)
    (holds : ∀ l ∈ pc.holds (s.proc t), l ∈ (s.pc t).holds (s.proc t))
    (here : State.At { s with pc := Function.update s.pc t pc } t pc)
    (hands : ∀ c, (s.pc t).hands c → pc.hands c)
    (todo : ∀ todo, s.pc t = .reparent todo → todo = []) : Inv (s.goto t pc) := by
  refine inv.move _ run.1 (Move.of_locks inv run idle (fun _ _ _ h => h) ?_ here hands todo)
  intro l mem
  exact inv.held t run.1 l (holds l mem)

theorem acquire {l : Nat} {pc : Pc} (idle : s.proc t ≠ root)
    (holds : ∀ k ∈ pc.holds (s.proc t), k = l ∨ k ∈ (s.pc t).holds (s.proc t))
    (here : State.At { s with lock := Function.update s.lock l (some t),
                              pc := Function.update s.pc t pc } t pc)
    (hands : ∀ c, (s.pc t).hands c → pc.hands c)
    (todo : ∀ todo, s.pc t = .reparent todo → todo = []) : Inv (s.acquire t l pc) := by
  unfold State.acquire
  split
  · rename_i free
    refine inv.move _ run.1 (Move.of_locks inv run idle ?_ ?_ here hands todo)
    · intro k u _ hk
      have ne : k ≠ l := by
        rintro rfl
        simp [free] at hk
      simpa [ne] using hk
    · intro k mem
      rcases holds k mem with rfl | old
      · simp
      · have := inv.held t run.1 k old
        have ne : k ≠ l := by
          rintro rfl
          simp [free] at this
        simpa [ne] using this
  · exact inv

theorem release {l : Nat} {pc : Pc} (idle : s.proc t ≠ root)
    (own : l ∈ (s.pc t).holds (s.proc t))
    (holds : ∀ k ∈ pc.holds (s.proc t), k ≠ l ∧ k ∈ (s.pc t).holds (s.proc t))
    (here : State.At { s with lock := Function.update s.lock l none,
                              pc := Function.update s.pc t pc } t pc)
    (hands : ∀ c, (s.pc t).hands c → pc.hands c)
    (todo : ∀ todo, s.pc t = .reparent todo → todo = []) : Inv ((s.release l).goto t pc) := by
  refine inv.move _ run.1 (Move.of_locks inv run idle ?_ ?_ here hands todo)
  · intro k u ne hk
    have other : k ≠ l := by
      rintro rfl
      rw [inv.held t run.1 k own] at hk
      exact ne (Option.some.inj hk).symm
    simpa [State.release, other] using hk
  · intro k mem
    simpa [State.release, (holds k mem).1] using inv.held t run.1 k (holds k mem).2

end Inv

/-! ### Blocking, waking and ending -/

namespace State

variable (s : State) (p : Nat)

theorem wakeOne_eq : ∃ waiting, s.wakeOne p = { s with waiting := waiting } ∧
    waiting.Sublist s.waiting := by
  unfold wakeOne
  split
  · exact ⟨s.waiting, rfl, List.Sublist.refl _⟩
  · exact ⟨_, rfl, List.erase_sublist⟩

end State

namespace Inv

variable {s : State} {t : Nat} (inv : Inv s) (run : s.Runnable t)

include inv run

theorem block {locked : List Nat} (hpc : s.pc t = .scan locked []) (idle : s.proc t ≠ root) :
    Inv (s.block t locked) := by
  refine inv.move .waitLock run.1 ?_
  constructor
  · exact ⟨rfl, rfl, rfl, rfl, rfl, rfl⟩
  · rfl
  · exact fun _ alive => alive
  · exact fun u alive dead => by simp [State.block, alive] at dead
  · intro l u ne hl
    have other : ¬ (l = s.proc t ∨ l ∈ locked) := by
      intro mem
      rw [inv.held t run.1 l (by simpa [hpc, Pc.holds] using mem)] at hl
      exact ne (Option.some.inj hl).symm
    simpa [State.block, other] using hl
  · intro _ l mem
    cases mem
  · exact fun _ => trivial
  · exact idle
  · intro u mem
    rcases List.mem_append.mp mem with old | new
    · have ne : u ≠ t := by
        rintro rfl
        exact run.2 old
      simpa [State.block, ne] using inv.blocked u old
    · rw [List.mem_singleton.mp new]
      exact ⟨run.1, by simp [State.block]⟩
  · refine List.nodup_append.mpr ⟨inv.waiting_nodup, List.nodup_singleton t, ?_⟩
    intro a ha b hb
    rw [List.mem_singleton.mp hb]
    rintro rfl
    exact run.2 ha
  · intro c h
    rcases h with h | h <;> simp [hpc] at h
  · intro todo h
    simp [hpc] at h

theorem wake (hpc : s.pc t = .wake) (idle : s.proc t ≠ root) : Inv (s.wake t) := by
  obtain ⟨w₁, eq₁, sub₁⟩ := s.wakeOne_eq (s.proc t)
  obtain ⟨w₂, eq₂, sub₂⟩ := (s.wakeOne (s.proc t)).wakeOne_eq init
  have sub : w₂.Sublist s.waiting := by
    rw [eq₁] at sub₂
    exact sub₂.trans sub₁
  refine inv.move .user run.1 ?_
  rw [State.wake, eq₂, eq₁]
  constructor
  · exact ⟨rfl, rfl, rfl, rfl, rfl, rfl⟩
  · rfl
  · exact fun _ alive => alive
  · exact fun u alive dead => by simp [State.goto, alive] at dead
  · exact fun _ _ _ h => h
  · intro _ l mem
    cases mem
  · exact fun _ => trivial
  · exact idle
  · intro u mem
    have old := sub.subset mem
    have ne : u ≠ t := by
      rintro rfl
      exact run.2 old
    simpa [State.goto, ne] using inv.blocked u old
  · exact inv.waiting_nodup.sublist sub
  · intro c h
    rcases h with h | h <;> simp [hpc] at h
  · intro todo h
    simp [hpc] at h

theorem vanishAct {n : Nat} (hpc : s.pc t = .vanishAct n) (idle : s.proc t ≠ root) :
    Inv (s.vanishAct t n) := by
  have hold : s.proc t ∈ (s.pc t).holds (s.proc t) := by simp [hpc, Pc.holds]
  obtain ⟨w, eq, sub⟩ : ∃ w,
      (if n = 1 then s.wakeOne (s.parent (s.proc t)) else s) = { s with waiting := w } ∧
        w.Sublist s.waiting := by
    split
    · exact s.wakeOne_eq _
    · exact ⟨s.waiting, rfl, List.Sublist.refl _⟩
  refine inv.move (.vanishAct n) run.1 ?_
  rw [State.vanishAct, eq]
  constructor
  · exact ⟨rfl, rfl, rfl, rfl, rfl, rfl⟩
  · rw [← hpc]
    exact (Function.update_eq_self t s.pc).symm
  · intro u alive
    by_cases ne : u = t
    · simp [ne] at alive
    · simpa [ne] using alive
  · intro u alive dead
    have : u = t := by
      by_contra ne
      simp [ne, alive] at dead
    exact ⟨by rw [this], hold⟩
  · intro l u ne hl
    have other : l ≠ s.proc t := by
      rintro rfl
      rw [inv.held t run.1 _ hold] at hl
      exact ne (Option.some.inj hl).symm
    simpa [other] using hl
  · intro alive
    simp at alive
  · intro alive
    simp at alive
  · exact idle
  · intro u mem
    have old := sub.subset mem
    have ne : u ≠ t := by
      rintro rfl
      exact run.2 old
    simpa [ne] using inv.blocked u old
  · exact inv.waiting_nodup.sublist sub
  · intro c h
    rcases h with h | h <;> simp [hpc] at h
  · intro todo h
    simp [hpc] at h

theorem kill (hpc : s.pc t = .kill) (idle : s.proc t ≠ root) : Inv (s.kill t) := by
  have hold : s.proc t ∈ (s.pc t).holds (s.proc t) := by simp [hpc, Pc.holds]
  refine inv.move .killUnlock run.1 ?_
  constructor
  · exact ⟨rfl, rfl, rfl, rfl, rfl, rfl⟩
  · rfl
  · intro u alive
    simp only [State.kill, Bool.and_eq_true] at alive
    exact alive.1
  · intro u alive dead
    refine ⟨?_, hold⟩
    by_contra ne
    simp [State.kill, alive, ne] at dead
  · exact fun _ _ _ h => h
  · intro _ l mem
    have : l = s.proc t := by simpa [Pc.holds] using mem
    rw [this]
    exact inv.held t run.1 _ hold
  · exact fun _ => trivial
  · exact idle
  · intro u mem
    obtain ⟨old, other⟩ := List.mem_filter.mp mem
    have ne : u ≠ t := by
      rintro rfl
      exact run.2 old
    obtain ⟨alive, place⟩ := inv.blocked u old
    have other' : s.proc u ≠ s.proc t := by simpa using other
    exact ⟨by simp [State.kill, alive, other'], by simp [State.kill, ne, place]⟩
  · exact inv.waiting_nodup.filter _
  · intro c h
    rcases h with h | h <;> simp [hpc] at h
  · intro todo h
    simp [hpc] at h

end Inv

/-! ### The tree -/

/-- What a thread knows stays so where its own list of children stays as it is. -/
theorem State.At.congr {s s' : State} {u : Nat} {pc : Pc} (proc : s'.proc = s.proc)
    (alive : s'.alive = s.alive) (count : s'.threadCount = s.threadCount)
    (gone : ∀ c, s.gone c = true → s'.gone c = true)
    (children : s.proc u ∈ pc.holds (s.proc u) →
      s'.children (s.proc u) = s.children (s.proc u))
    (kept : ∀ todo, pc = .reparent todo → ∀ x ∈ s.children init, x ∈ s'.children init)
    (old : s.At u pc) : s'.At u pc := by
  have live : ∀ c, s'.Live c ↔ s.Live c := by
    intro c
    rw [State.Live, State.Live, proc, alive]
  cases pc with
  | scan locked rest =>
    refine ⟨?_, old.2.1, fun c hc => (live c).mpr (old.2.2 c hc)⟩
    rw [proc, children List.mem_cons_self]
    exact old.1
  | count locked d rest =>
    refine ⟨?_, fun c hc => (live c).mpr (old.2 c hc)⟩
    rw [proc, children List.mem_cons_self]
    exact old.1
  | unlockFound todo d =>
    refine ⟨?_, fun h => old.2.1 ((live d).mp h), ?_⟩
    · rw [proc, children List.mem_cons_self]
      exact old.1
    · rw [proc]
      exact old.2.2
  | detach d =>
    refine ⟨?_, fun h => old.2 ((live d).mp h)⟩
    rw [proc, children List.mem_cons_self]
    exact old.1
  | lockInit c =>
    obtain ⟨h₁, h₂, h₃⟩ := old
    rw [← proc] at h₂ h₃
    exact ⟨gone c h₁, h₂, h₃⟩
  | splice c =>
    obtain ⟨h₁, h₂⟩ := old
    rw [← proc] at h₂
    exact ⟨gone c h₁, h₂⟩
  | reparent todo => exact fun x hx => kept todo rfl x (old x hx)
  | unlockInit =>
    change s'.proc u ≠ init
    rw [proc]
    exact old
  | vanishAct n =>
    change n = s'.aliveCount (s'.proc u)
    rw [State.aliveCount, proc, alive, count]
    exact old
  | _ => trivial

/-- A step of thread `t` to `pc` that edits lists of children, under the locks it holds. -/
structure Relink (s : State) (t : Nat) (pc : Pc) (s' : State) : Prop where
  threadCount : s'.threadCount = s.threadCount
  procCount : s'.procCount = s.procCount
  proc : s'.proc = s.proc
  alive : s'.alive = s.alive
  waiting : s'.waiting = s.waiting
  lock : s'.lock = s.lock
  pc_eq : s'.pc = Function.update s.pc t pc
  gone : ∀ c, s.gone c = true → s'.gone c = true
  others : ∀ u, u ≠ t → s.alive u = true → s.proc u ∈ (s.pc u).holds (s.proc u) →
    s'.children (s.proc u) = s.children (s.proc u)
  kept : ∀ u todo, u ≠ t → s.alive u = true → s.pc u = .reparent todo →
    ∀ x ∈ s.children init, x ∈ s'.children init
  held : ∀ l ∈ pc.holds (s.proc t), s.lock l = some t
  here : s'.At t pc
  idle : s.proc t ≠ root

theorem Inv.relink {s s' : State} {t : Nat} (inv : Inv s) (pc : Pc) (run : s.Runnable t)
    (m : Relink s t pc s') (tree : Tree s') : Inv s' where
  toTree := tree
  known u alive := by
    rw [m.alive] at alive
    rw [m.threadCount, m.proc, m.procCount]
    exact inv.known u alive
  blocked u mem := by
    rw [m.waiting] at mem
    have ne : u ≠ t := by
      rintro rfl
      exact run.2 mem
    simpa [m.alive, m.pc_eq, ne] using inv.blocked u mem
  waiting_nodup := by
    rw [m.waiting]
    exact inv.waiting_nodup
  idle u alive proc := by
    rw [m.alive] at alive
    rw [m.proc] at proc
    have ne : u ≠ t := by
      rintro rfl
      exact m.idle proc
    simpa [m.pc_eq, ne] using inv.idle u alive proc
  held u alive l mem := by
    rw [m.alive] at alive
    rw [m.lock]
    by_cases ne : u = t
    · subst ne
      exact m.held l (by simpa [m.pc_eq, m.proc] using mem)
    · exact inv.held u alive l (by simpa [m.pc_eq, m.proc, ne] using mem)
  here u alive := by
    rw [m.alive] at alive
    by_cases ne : u = t
    · subst ne
      simpa [m.pc_eq] using m.here
    · rw [m.pc_eq, Function.update_of_ne ne]
      exact State.At.congr m.proc m.alive m.threadCount m.gone (m.others u ne alive)
        (fun todo h => m.kept u todo ne alive h) (inv.here u alive)

namespace Inv

variable {s : State} {t : Nat} (inv : Inv s) (run : s.Runnable t)

include inv run

/-- While a thread of another process is about to hand orphans over, `init` has a child:
go down from that process to the processes that list each other. -/
theorem init_children {c : Nat} (hpc : s.pc t = .splice c) (other : s.proc t ≠ init) :
    s.children init ≠ [] := by
  have idle : s.proc t ≠ root := by
    intro h
    simp [inv.idle t run.1 h] at hpc
  have lt : s.proc t < c := by
    have := inv.here t run.1
    rw [hpc] at this
    exact this.2
  suffices down : ∀ p, p ≤ s.proc t → p ≠ root → p ≠ init → s.gone p = false →
      p < s.procCount → s.children init ≠ [] from
    down _ (Nat.le_refl _) idle other (inv.not_gone run.1) (inv.known t run.1).2
  intro p
  induction p using Nat.strongRecOn with
  | _ p ih =>
    intro le ne neInit stays known
    obtain ⟨q, mem, owner⟩ := inv.owned p ne known stays
    obtain ⟨ltq, -, -⟩ := inv.listed p q mem
    have neRoot : q ≠ root := by
      rintro rfl
      rw [inv.first, List.mem_singleton] at mem
      exact neInit mem
    by_cases hq : q = init
    · subst hq
      exact List.ne_nil_of_mem mem
    rcases owner with stays | ⟨u, alive, hands⟩
    · exact ih q ltq (by omega) neRoot hq stays (by omega)
    · have here := inv.here u alive
      rcases hands with hu | hu
      · rw [hu] at here
        obtain ⟨-, ltu, neu⟩ := here
        refine ih (s.proc u) (by omega) (by omega) ?_ neu (inv.not_gone alive)
          (inv.known u alive).2
        intro rootU
        simp [inv.idle u alive rootU] at hu
      · -- A second thread at `splice` would hold the lock of `init` as well.
        have same : u = t := inv.holder_unique (l := init) run.1 alive
          (by simp [hpc, Pc.holds]) (by simp [hu, Pc.holds])
        subst same
        rw [hu] at hpc
        cases hpc
        omega

end Inv

/-! ### Taking a child out and handing its orphans over -/

namespace Inv

variable {s : State} {t : Nat} (inv : Inv s) (run : s.Runnable t)

include inv run

/-- A list under a lock that thread `t` holds is not under a lock of another thread. -/
theorem ne_of_holds {u l k : Nat} (ne : u ≠ t) (alive : s.alive u = true)
    (ht : l ∈ (s.pc t).holds (s.proc t)) (hu : k ∈ (s.pc u).holds (s.proc u)) : k ≠ l := by
  rintro rfl
  exact ne (inv.holder_unique run.1 alive ht hu)

theorem detach {c : Nat} (hpc : s.pc t = .detach c) (idle : s.proc t ≠ root) :
    Inv (s.detach t c) := by
  have here := inv.here t run.1
  rw [hpc] at here
  obtain ⟨mem, dead⟩ := here
  obtain ⟨lt, known, stays⟩ := inv.listed c _ mem
  have hold : s.proc t ∈ (s.pc t).holds (s.proc t) := by simp [hpc, Pc.holds]
  have sub : ∀ p q, p ∈ (s.detach t c).children q → p ∈ s.children q ∧ p ≠ c := by
    intro p q hp
    by_cases hq : q = s.proc t
    · subst hq
      simp only [State.detach, Function.update_self] at hp
      exact ⟨List.mem_of_mem_erase hp, ((inv.children_nodup _).mem_erase_iff.mp hp).1⟩
    · simp only [State.detach, Function.update_of_ne hq] at hp
      refine ⟨hp, ?_⟩
      rintro rfl
      exact hq (inv.once _ _ _ hp mem)
  have pc_other : ∀ u, u ≠ t → (s.detach t c).pc u = s.pc u := by
    intro u ne
    simp [State.detach, ne]
  have hands : ((s.detach t c).pc t).hands c := by
    by_cases h : s.proc t = init <;> simp [State.detach, h, Pc.hands]
  refine inv.relink (if s.proc t = init then .splice c else .lockInit c) run ?_ ?_
  · constructor
    case gone =>
      intro d gone
      by_cases hd : d = c <;> simp [State.detach, hd, gone]
    case others =>
      intro u ne alive own
      have := inv.ne_of_holds run ne alive hold own
      simp [State.detach, this]
    case kept =>
      intro u todo ne alive at' x hx
      have other : init ≠ s.proc t :=
        inv.ne_of_holds run ne alive hold (by simp [at', Pc.holds])
      simpa [State.detach, other] using hx
    case held =>
      intro l hl
      have : l = s.proc t := by
        by_cases h : s.proc t = init <;> simpa [h, Pc.holds] using hl
      rw [this]
      exact inv.held t run.1 _ hold
    case here =>
      by_cases h : s.proc t = init
      · rw [if_pos h]
        exact ⟨by simp [State.detach], lt⟩
      · rw [if_neg h]
        exact ⟨by simp [State.detach], lt, h⟩
    case idle => exact idle
    all_goals rfl
  · constructor
    case children_nodup =>
      intro q
      by_cases hq : q = s.proc t
      · subst hq
        simp only [State.detach, Function.update_self]
        exact (inv.children_nodup _).erase c
      · simp only [State.detach, Function.update_of_ne hq]
        exact inv.children_nodup q
    case listed =>
      intro p q hp
      obtain ⟨old, ne⟩ := sub p q hp
      have := inv.listed p q old
      exact ⟨this.1, this.2.1, by simpa [State.detach, ne] using this.2.2⟩
    case once =>
      intro p q r hq hr
      exact inv.once p q r (sub p q hq).1 (sub p r hr).1
    case first =>
      simp only [State.detach, Function.update_of_ne idle.symm]
      exact inv.first
    case gone_known =>
      intro p gone
      by_cases hp : p = c
      · subst hp
        exact ⟨known, dead⟩
      · exact inv.gone_known p (by simpa [State.detach, hp] using gone)
    case owned =>
      intro p ne lt' gone
      have hp : p ≠ c := by
        rintro rfl
        simp [State.detach] at gone
      obtain ⟨q, memq, owner⟩ := inv.owned p ne lt' (by simpa [State.detach, hp] using gone)
      refine ⟨q, ?_, ?_⟩
      · by_cases hq : q = s.proc t
        · subst hq
          simp only [State.detach, Function.update_self]
          exact (List.mem_erase_of_ne hp).mpr memq
        · simpa [State.detach, hq] using memq
      · by_cases hq : q = c
        · subst hq
          exact Or.inr ⟨t, run.1, hands⟩
        · rcases owner with stays | ⟨u, alive, handsU⟩
          · exact Or.inl (by simpa [State.detach, hq] using stays)
          · refine Or.inr ⟨u, alive, ?_⟩
            rw [pc_other u]
            · exact handsU
            · rintro rfl
              rcases handsU with h | h <;> simp [hpc] at h
    case parents =>
      intro p q hp
      rcases inv.parents p q (sub p q hp).1 with h | ⟨rfl, u, todo, alive, at', hx⟩
      · exact Or.inl h
      · refine Or.inr ⟨rfl, u, todo, alive, ?_, hx⟩
        rw [pc_other u]
        · exact at'
        · rintro rfl
          simp [hpc] at at'

/-- The orphans of `c` are in the list of `init` after the splice. -/
theorem splice_children {c : Nat} (hpc : s.pc t = .splice c) (q : Nat) :
    (s.splice t c).children q =
      if q = c then [] else if q = init then s.children init ++ s.children c else s.children q := by
  have heir : (if s.children init = [] then s.proc t else init) = init := by
    split
    · rename_i empty
      by_contra other
      exact inv.init_children run hpc other empty
    · rfl
  by_cases hq : q = c
  · simp [State.splice, hq]
  · by_cases orphans : s.children c = []
    · by_cases hi : q = init
      · subst hi
        simp [State.splice, hq, orphans]
      · simp [State.splice, hq, hi, orphans]
    · by_cases hi : q = init
      · subst hi
        simp [State.splice, hq, orphans, heir]
      · simp [State.splice, hq, hi, orphans, heir]

theorem splice {c : Nat} (hpc : s.pc t = .splice c) (idle : s.proc t ≠ root) :
    Inv (s.splice t c) := by
  have list := inv.splice_children run hpc
  have here := inv.here t run.1
  rw [hpc] at here
  obtain ⟨gone, lt⟩ := here
  have ne_init : init ≠ c := by
    rintro rfl
    simp [inv.init_not_gone] at gone
  have init_lt : init < c := by
    simp only [root, init] at *
    omega
  have hold : init ∈ (s.pc t).holds (s.proc t) := by simp [hpc, Pc.holds]
  have from_old : ∀ p q, p ∈ (s.splice t c).children q →
      p ∈ s.children q ∨ (q = init ∧ p ∈ s.children c) := by
    intro p q hp
    rw [list] at hp
    split at hp
    · cases hp
    · split at hp
      · rename_i hi
        subst hi
        rcases List.mem_append.mp hp with h | h
        · exact Or.inl h
        · exact Or.inr ⟨rfl, h⟩
      · exact Or.inl hp
  have not_c : ∀ p, p ∉ (s.splice t c).children c := by
    intro p
    simp [list]
  have pc_other : ∀ u, u ≠ t → (s.splice t c).pc u = s.pc u := by
    intro u ne
    simp [State.splice, ne]
  refine inv.relink (.reparent (s.children c)) run ?_ ?_
  · constructor
    case gone => exact fun _ h => h
    case others =>
      intro u ne alive own
      have h₁ : s.proc u ≠ init := inv.ne_of_holds run ne alive hold own
      have h₂ : s.proc u ≠ c := by
        intro h
        exact (inv.gone_known c gone).2 ⟨u, alive, h⟩
      simp [list, h₁, h₂]
    case kept =>
      intro u todo ne alive at' x hx
      simp [list, ne_init, hx]
    case held =>
      intro l hl
      exact inv.held t run.1 l (by simpa [hpc, Pc.holds] using hl)
    case here =>
      intro x hx
      simp [list, ne_init, hx]
    case idle => exact idle
    all_goals rfl
  · constructor
    case children_nodup =>
      intro q
      rw [list]
      split
      · exact List.nodup_nil
      · split
        · refine List.nodup_append.mpr ⟨inv.children_nodup _, inv.children_nodup _, ?_⟩
          rintro a ha _ hb rfl
          exact ne_init (inv.once a _ _ ha hb)
        · exact inv.children_nodup q
    case listed =>
      intro p q hp
      rcases from_old p q hp with h | ⟨rfl, h⟩
      · exact inv.listed p q h
      · have := inv.listed p c h
        exact ⟨by omega, this.2⟩
    case once =>
      intro p q r hq hr
      have hqc : q ≠ c := fun h => not_c p (h ▸ hq)
      have hrc : r ≠ c := fun h => not_c p (h ▸ hr)
      rcases from_old p q hq with h | ⟨rfl, h⟩ <;> rcases from_old p r hr with h' | ⟨rfl, h'⟩
      · exact inv.once p q r h h'
      · exact absurd (inv.once p q c h h') hqc
      · exact absurd (inv.once p r c h' h) hrc
      · rfl
    case first =>
      have h₁ : root ≠ c := by
        simp only [root, init] at *
        omega
      have h₂ : root ≠ init := by decide
      rw [list, if_neg h₁, if_neg h₂]
      exact inv.first
    case gone_known => exact inv.gone_known
    case owned =>
      intro p ne lt' stays
      obtain ⟨q, mem, owner⟩ := inv.owned p ne lt' stays
      by_cases hq : q = c
      · subst hq
        exact ⟨init, by simp [list, ne_init, mem], Or.inl inv.init_not_gone⟩
      · refine ⟨q, ?_, ?_⟩
        · rw [list, if_neg hq]
          split
          · rename_i hi
            subst hi
            exact List.mem_append_left _ mem
          · exact mem
        · rcases owner with stays | ⟨u, alive, hands⟩
          · exact Or.inl stays
          · refine Or.inr ⟨u, alive, ?_⟩
            rw [pc_other u]
            · exact hands
            · rintro rfl
              rcases hands with h | h
              · simp [hpc] at h
              · rw [hpc] at h
                cases h
                exact hq rfl
    case parents =>
      intro p q hp
      rcases from_old p q hp with h | ⟨rfl, h⟩
      · rcases inv.parents p q h with h | ⟨rfl, u, todo, alive, at', hx⟩
        · exact Or.inl h
        · refine Or.inr ⟨rfl, u, todo, alive, ?_, hx⟩
          rw [pc_other u]
          · exact at'
          · rintro rfl
            simp [hpc] at at'
      · exact Or.inr ⟨rfl, t, s.children c, run.1, by simp [State.splice], h⟩

/-- One turn of the loop over the parent pointers. -/
theorem reparent {x : Nat} {todo : List Nat} (hpc : s.pc t = .reparent (x :: todo))
    (idle : s.proc t ≠ root) :
    Inv (State.goto { s with parent := Function.update s.parent x init } t (.reparent todo)) := by
  have here := inv.here t run.1
  rw [hpc] at here
  refine inv.relink (.reparent todo) run ?_ ?_
  · constructor
    case gone => exact fun _ h => h
    case others => exact fun _ _ _ _ => rfl
    case kept => exact fun _ _ _ _ _ _ h => h
    case held =>
      intro l hl
      exact inv.held t run.1 l (by simpa [hpc, Pc.holds] using hl)
    case here => exact fun y hy => here y (List.mem_cons_of_mem _ hy)
    case idle => exact idle
    all_goals rfl
  · constructor
    case children_nodup => exact inv.children_nodup
    case listed => exact inv.listed
    case once => exact inv.once
    case first => exact inv.first
    case gone_known => exact inv.gone_known
    case owned =>
      intro p ne lt stays
      obtain ⟨q, mem, owner⟩ := inv.owned p ne lt stays
      refine ⟨q, mem, ?_⟩
      rcases owner with stays | ⟨u, alive, hands⟩
      · exact Or.inl stays
      · refine Or.inr ⟨u, alive, ?_⟩
        have ne : u ≠ t := by
          rintro rfl
          rcases hands with h | h <;> simp [hpc] at h
        simpa [State.goto, ne] using hands
    case parents =>
      intro p q hp
      by_cases hx : p = x
      · subst hx
        have : q = init := inv.once p q init hp (here p List.mem_cons_self)
        exact Or.inl (by simp [State.goto, this])
      · rcases inv.parents p q hp with h | ⟨rfl, u, todo', alive, at', hmem⟩
        · exact Or.inl (by simpa [State.goto, hx] using h)
        · by_cases ne : u = t
          · subst ne
            rw [hpc] at at'
            cases at'
            have : p ∈ todo := by simpa [hx] using hmem
            exact Or.inr ⟨rfl, u, todo, alive, by simp [State.goto], this⟩
          · exact Or.inr ⟨rfl, u, todo', alive, by simpa [State.goto, ne] using at', hmem⟩

end Inv

/-! ### New threads -/

/-- A thread of process `p` is made. -/
structure Spawn (s : State) (p : Nat) (s' : State) : Prop where
  threadCount : s'.threadCount = s.threadCount + 1
  proc : s'.proc = Function.update s.proc s.threadCount p
  alive : s'.alive = Function.update s.alive s.threadCount true
  pc : s'.pc = Function.update s.pc s.threadCount .user
  waiting : s'.waiting = s.waiting
  lock : s'.lock = s.lock
  gone : s'.gone = s.gone

namespace Spawn

variable {s s' : State} {p u : Nat}

theorem alive_iff (m : Spawn s p s') :
    s'.alive u = true ↔ u = s.threadCount ∨ (u ≠ s.threadCount ∧ s.alive u = true) := by
  by_cases h : u = s.threadCount
  · simp [m.alive, h]
  · simp [m.alive, h]

theorem ne_new (inv : Inv s) (alive : s.alive u = true) : u ≠ s.threadCount := by
  have := (inv.known u alive).1
  omega

theorem live_iff (m : Spawn s p s') (inv : Inv s) {c : Nat} : s'.Live c ↔ c = p ∨ s.Live c := by
  constructor
  · rintro ⟨u, alive, proc⟩
    rcases (m.alive_iff).mp alive with rfl | ⟨ne, alive⟩
    · left
      simpa [m.proc] using proc.symm
    · exact Or.inr ⟨u, alive, by simpa [m.proc, ne] using proc⟩
  · rintro (rfl | ⟨u, alive, rfl⟩)
    · exact ⟨s.threadCount, (m.alive_iff).mpr (Or.inl rfl), by simp [m.proc]⟩
    · have ne := ne_new inv alive
      exact ⟨u, (m.alive_iff).mpr (Or.inr ⟨ne, alive⟩), by simp [m.proc, ne]⟩

theorem aliveCount_other (m : Spawn s p s') {c : Nat} (ne : c ≠ p) :
    s'.aliveCount c = s.aliveCount c := by
  unfold State.aliveCount
  rw [m.threadCount, List.range_succ, List.filter_append]
  have new : ([s.threadCount].filter fun t => s'.alive t && s'.proc t = c) = [] := by
    simp [m.proc, ne.symm]
  rw [new, List.append_nil]
  congr 1
  apply List.filter_congr
  intro v mem
  have : v ≠ s.threadCount := by
    have := List.mem_range.mp mem
    omega
  simp [m.alive, m.proc, this]

end Spawn

theorem Inv.spawn {s s' : State} {p : Nat} (inv : Inv s) (m : Spawn s p s')
    (more : s.procCount ≤ s'.procCount) (known : p < s'.procCount) (idle : p ≠ root)
    (unlocked : ∀ u, s.alive u = true → s.proc u ∈ (s.pc u).holds (s.proc u) →
      s.proc u ≠ p ∧ s'.children (s.proc u) = s.children (s.proc u))
    (zombies : ∀ q, ∀ d ∈ s.children q, ¬ s.Live d → d ≠ p)
    (kept : ∀ x ∈ s.children init, x ∈ s'.children init) (tree : Tree s') : Inv s' where
  toTree := tree
  known u alive := by
    rw [m.threadCount]
    rcases (m.alive_iff).mp alive with rfl | ⟨ne, alive⟩
    · exact ⟨by omega, by simpa [m.proc] using known⟩
    · have := inv.known u alive
      simp only [m.proc, Function.update_of_ne ne]
      omega
  blocked u mem := by
    rw [m.waiting] at mem
    obtain ⟨alive, place⟩ := inv.blocked u mem
    have ne := Spawn.ne_new inv alive
    exact ⟨(m.alive_iff).mpr (Or.inr ⟨ne, alive⟩), by simpa [m.pc, ne] using place⟩
  waiting_nodup := by
    rw [m.waiting]
    exact inv.waiting_nodup
  idle u alive proc := by
    rcases (m.alive_iff).mp alive with rfl | ⟨ne, alive⟩
    · simp [m.pc]
    · rw [m.pc, Function.update_of_ne ne]
      exact inv.idle u alive (by simpa [m.proc, ne] using proc)
  held u alive l mem := by
    rw [m.lock]
    rcases (m.alive_iff).mp alive with rfl | ⟨ne, alive⟩
    · simp [m.pc, Pc.holds] at mem
    · exact inv.held u alive l (by simpa [m.pc, m.proc, ne] using mem)
  here u alive := by
    rcases (m.alive_iff).mp alive with rfl | ⟨ne, alive⟩
    · rw [m.pc, Function.update_self]
      trivial
    have proc : s'.proc u = s.proc u := by simp [m.proc, ne]
    have pc : s'.pc u = s.pc u := by simp [m.pc, ne]
    have old := inv.here u alive
    have own := unlocked u alive
    have live : ∀ c, s.Live c → s'.Live c := fun c h => (m.live_iff inv).mpr (Or.inr h)
    have dead : ∀ d ∈ s.children (s.proc u), ¬ s.Live d → ¬ s'.Live d := by
      intro d mem dead h
      rcases (m.live_iff inv).mp h with rfl | h
      · exact zombies _ d mem dead rfl
      · exact dead h
    rw [pc]
    cases hpc : s.pc u with
    | scan locked rest =>
      rw [hpc] at old own
      refine ⟨?_, old.2.1, fun c hc => live c (old.2.2 c hc)⟩
      rw [proc, (own List.mem_cons_self).2]
      exact old.1
    | count locked d rest =>
      rw [hpc] at old own
      refine ⟨?_, fun c hc => live c (old.2 c hc)⟩
      rw [proc, (own List.mem_cons_self).2]
      exact old.1
    | unlockFound todo d =>
      rw [hpc] at old own
      unfold State.At
      rw [proc, (own List.mem_cons_self).2]
      exact ⟨old.1, dead d old.1 old.2.1, old.2.2⟩
    | detach d =>
      rw [hpc] at old own
      unfold State.At
      rw [proc, (own List.mem_cons_self).2]
      exact ⟨old.1, dead d old.1 old.2⟩
    | lockInit c | splice c =>
      rw [hpc] at old
      simpa only [State.At, proc, m.gone] using old
    | reparent todo =>
      rw [hpc] at old
      exact fun x hx => kept x (old x hx)
    | unlockInit =>
      rw [hpc] at old
      simpa only [State.At, proc] using old
    | vanishAct n =>
      rw [hpc] at old own
      change n = _
      rw [proc, m.aliveCount_other (own List.mem_cons_self).1]
      exact old
    | _ => trivial

namespace Inv

variable {s : State} {t : Nat} (inv : Inv s) (run : s.Runnable t)

include inv run

theorem threadFork (idle : s.proc t ≠ root) : Inv (s.threadFork t) := by
  unfold State.threadFork
  split
  swap
  · exact inv
  rename_i free
  have m : Spawn s (s.proc t) { s with
      threadCount := s.threadCount + 1
      proc := Function.update s.proc s.threadCount (s.proc t)
      alive := Function.update s.alive s.threadCount true
      pc := Function.update s.pc s.threadCount .user } := ⟨rfl, rfl, rfl, rfl, rfl, rfl, rfl⟩
  have pc_other : ∀ u, s.alive u = true →
      Function.update s.pc s.threadCount Pc.user u = s.pc u :=
    fun u alive => Function.update_of_ne (Spawn.ne_new inv alive) _ _
  have alive_other : ∀ u, s.alive u = true →
      Function.update s.alive s.threadCount true u = true := by
    intro u alive
    rw [Function.update_of_ne (Spawn.ne_new inv alive)]
    exact alive
  refine inv.spawn m (Nat.le_refl _) (inv.known t run.1).2 idle ?_ ?_ (fun _ h => h) ?_
  · intro u alive own
    refine ⟨?_, rfl⟩
    intro same
    have := inv.held u alive _ own
    rw [same, free] at this
    cases this
  · rintro q d - dead rfl
    exact dead ⟨t, run.1, rfl⟩
  · constructor
    case children_nodup => exact inv.children_nodup
    case listed => exact inv.listed
    case once => exact inv.once
    case first => exact inv.first
    case gone_known =>
      intro p gone
      refine ⟨(inv.gone_known p gone).1, fun live => ?_⟩
      rcases (m.live_iff inv).mp live with rfl | live
      · exact (inv.gone_known _ gone).2 ⟨t, run.1, rfl⟩
      · exact (inv.gone_known p gone).2 live
    case owned =>
      intro p ne lt stays
      obtain ⟨q, mem, owner⟩ := inv.owned p ne lt stays
      refine ⟨q, mem, ?_⟩
      rcases owner with stays | ⟨u, alive, hands⟩
      · exact Or.inl stays
      · exact Or.inr ⟨u, alive_other u alive, by dsimp only; rwa [pc_other u alive]⟩
    case parents =>
      intro p q hp
      rcases inv.parents p q hp with h | ⟨rfl, u, todo, alive, at', hx⟩
      · exact Or.inl h
      · exact Or.inr ⟨rfl, u, todo, alive_other u alive, by dsimp only; rwa [pc_other u alive], hx⟩

theorem fork (hpc : s.pc t = .user) (idle : s.proc t ≠ root) : Inv (s.fork t) := by
  unfold State.fork
  dsimp only
  split
  swap
  · exact inv
  rename_i one
  have alone : ∀ u, s.alive u = true → s.proc u = s.proc t → u = t :=
    fun u alive same => inv.alone_of_aliveCount run.1 one alive same
  have lt := (inv.known t run.1).2
  have fresh : s.gone s.procCount = false := by
    by_contra h
    have := (inv.gone_known _ (by simpa using h)).1
    omega
  have pc_other : ∀ u, s.alive u = true →
      Function.update s.pc s.threadCount Pc.user u = s.pc u :=
    fun u alive => Function.update_of_ne (Spawn.ne_new inv alive) _ _
  have alive_other : ∀ u, s.alive u = true →
      Function.update s.alive s.threadCount true u = true := by
    intro u alive
    rw [Function.update_of_ne (Spawn.ne_new inv alive)]
    exact alive
  have list : ∀ p q, p ∈ Function.update s.children (s.proc t)
      (s.children (s.proc t) ++ [s.procCount]) q ↔
        p ∈ s.children q ∨ (p = s.procCount ∧ q = s.proc t) := by
    intro p q
    by_cases hq : q = s.proc t
    · subst hq
      simp
    · simp [hq]
  have old : ∀ p q, p ∈ s.children q → p ≠ s.procCount := by
    rintro p q mem rfl
    have := (inv.listed _ q mem).2.1
    omega
  generalize hs' : ({ s with
      threadCount := s.threadCount + 1
      procCount := s.procCount + 1
      proc := Function.update s.proc s.threadCount s.procCount
      alive := Function.update s.alive s.threadCount true
      pc := Function.update s.pc s.threadCount .user
      children := Function.update s.children (s.proc t) (s.children (s.proc t) ++ [s.procCount])
      parent := Function.update s.parent s.procCount (s.proc t) } : State) = s'
  have m : Spawn s s.procCount s' := by
    subst hs'
    exact ⟨rfl, rfl, rfl, rfl, rfl, rfl, rfl⟩
  have ne_root : s.procCount ≠ root := by
    simp only [root]
    omega
  refine inv.spawn m ?_ ?_ ne_root ?_ ?_ ?_ ?_
  · subst hs'
    exact Nat.le_succ _
  · subst hs'
    exact Nat.lt_succ_self _
  · intro u alive own
    have := (inv.known u alive).2
    refine ⟨by omega, ?_⟩
    have other : s.proc u ≠ s.proc t := by
      intro same
      rw [alone u alive same, hpc] at own
      cases own
    subst hs'
    exact Function.update_of_ne other _ _
  · rintro q d mem - rfl
    exact old _ q mem rfl
  · intro x hx
    subst hs'
    exact (list x init).mpr (Or.inl hx)
  · subst hs'
    constructor
    case children_nodup =>
      intro q
      by_cases hq : q = s.proc t
      · subst hq
        simp only [Function.update_self]
        refine List.nodup_append.mpr ⟨inv.children_nodup _, List.nodup_singleton _, ?_⟩
        intro a ha b hb
        rw [List.mem_singleton.mp hb]
        exact old a _ ha
      · simp only [Function.update_of_ne hq]
        exact inv.children_nodup q
    case listed =>
      intro p q hp
      rcases (list p q).mp hp with h | ⟨rfl, rfl⟩
      · have := inv.listed p q h
        dsimp only
        exact ⟨this.1, by omega, this.2.2⟩
      · exact ⟨lt, Nat.lt_succ_self _, fresh⟩
    case once =>
      intro p q r hq hr
      rcases (list p q).mp hq with h | ⟨h, rfl⟩ <;> rcases (list p r).mp hr with h' | ⟨h', rfl⟩
      · exact inv.once p q r h h'
      · exact absurd h' (old p q h)
      · exact absurd h (old p r h')
      · rfl
    case first =>
      simp only [Function.update_of_ne idle.symm]
      exact inv.first
    case gone_known =>
      intro p gone
      obtain ⟨known, dead⟩ := inv.gone_known p gone
      refine ⟨Nat.lt_succ_of_lt known, fun live => ?_⟩
      rcases (m.live_iff inv).mp live with rfl | live
      · omega
      · exact dead live
    case owned =>
      intro p ne lt' stays
      by_cases hp : p = s.procCount
      · exact ⟨s.proc t, (list p _).mpr (Or.inr ⟨hp, rfl⟩), Or.inl (inv.not_gone run.1)⟩
      · dsimp only at lt'
        obtain ⟨q, mem, owner⟩ := inv.owned p ne (by omega) stays
        refine ⟨q, (list p q).mpr (Or.inl mem), ?_⟩
        rcases owner with stays | ⟨u, alive, hands⟩
        · exact Or.inl stays
        · exact Or.inr ⟨u, alive_other u alive, by dsimp only; rwa [pc_other u alive]⟩
    case parents =>
      intro p q hp
      dsimp only
      rcases (list p q).mp hp with h | ⟨rfl, rfl⟩
      · rw [Function.update_of_ne (old p q h)]
        rcases inv.parents p q h with h | ⟨rfl, u, todo, alive, at', hx⟩
        · exact Or.inl h
        · exact Or.inr ⟨rfl, u, todo, alive_other u alive, by rwa [pc_other u alive], hx⟩
      · exact Or.inl (Function.update_self _ _ _)

end Inv

/-! ### All steps -/

namespace Inv

variable {s : State} {t : Nat} (inv : Inv s) (run : s.Runnable t)

include inv run

theorem call (hpc : s.pc t = .user) (idle : s.proc t ≠ root) (choice : Choice) :
    Inv (s.call t choice) := by
  have hands : ∀ pc : Pc, ∀ c, (s.pc t).hands c → pc.hands c := by
    intro pc c h
    rcases h with h | h <;> simp [hpc] at h
  have todo : ∀ todo, s.pc t = .reparent todo → todo = [] := by
    intro todo h
    simp [hpc] at h
  cases choice with
  | wait => exact inv.goto run idle (by simp [Pc.holds]) trivial (hands _) todo
  | vanish => exact inv.goto run idle (by simp [Pc.holds]) trivial (hands _) todo
  | taskVanish => exact inv.goto run idle (by simp [Pc.holds]) trivial (hands _) todo
  | fork => exact inv.fork run hpc idle
  | threadFork => exact inv.threadFork run idle
  | fault => exact inv

theorem count {locked rest : List Nat} {c : Nat} (hpc : s.pc t = .count locked c rest)
    (idle : s.proc t ≠ root) :
    Inv (if s.aliveCount c = 0 then s.goto t (.unlockFound (locked ++ [c]) c)
      else s.goto t (.scan (locked ++ [c]) rest)) := by
  have here := inv.here t run.1
  rw [hpc] at here
  obtain ⟨list, live⟩ := here
  have hands : ∀ pc : Pc, ∀ c, (s.pc t).hands c → pc.hands c := by
    intro pc c h
    rcases h with h | h <;> simp [hpc] at h
  have todo : ∀ todo, s.pc t = .reparent todo → todo = [] := by
    intro todo h
    simp [hpc] at h
  split
  · rename_i none
    refine inv.goto run idle (by simp [hpc, Pc.holds]) ⟨?_, ?_, ?_⟩ (hands _) todo
    · dsimp only
      rw [list]
      simp
    · exact inv.aliveCount_eq_zero.mp none
    · exact inv.nodup_found list
  · rename_i some
    refine inv.goto run idle (by simp [hpc, Pc.holds]) ⟨?_, by simp, ?_⟩ (hands _) todo
    · dsimp only
      rw [list, List.append_assoc, List.singleton_append]
    · intro d mem
      rcases List.mem_append.mp mem with h | h
      · exact live d h
      · rw [List.mem_singleton.mp h]
        by_contra dead
        exact some (inv.aliveCount_eq_zero.mpr dead)

theorem next (choice : Choice) : Inv (s.next t choice) := by
  by_cases idle : s.proc t = root
  · have hpc := inv.idle t run.1 idle
    simp only [State.next, hpc, idle, if_true]
    exact inv
  have here := inv.here t run.1
  -- Only two places hand orphans over, and only one corrects parents.
  have plain : (∀ c, ¬ (s.pc t).hands c) → ∀ pc : Pc, ∀ c, (s.pc t).hands c → pc.hands c :=
    fun none _ c h => absurd h (none c)
  unfold State.next
  dsimp only
  cases hpc : s.pc t with
  | user =>
    simp only [if_neg idle]
    exact inv.call run hpc idle choice
  | waitLock =>
    exact inv.acquire run idle (by simp [Pc.holds]) trivial (plain (by simp [hpc, Pc.hands]) _)
      (by simp [hpc])
  | waitCheck =>
    dsimp only
    split
    · exact inv.release run idle (by simp [hpc, Pc.holds]) (by simp [Pc.holds]) trivial
        (plain (by simp [hpc, Pc.hands]) _) (by simp [hpc])
    · rename_i some
      exact inv.goto run idle (by simp [hpc, Pc.holds]) ⟨rfl, some, by simp⟩
        (plain (by simp [hpc, Pc.hands]) _) (by simp [hpc])
  | scan locked rest =>
    rw [hpc] at here
    cases rest with
    | nil => exact inv.block run hpc idle
    | cons c rest =>
      exact inv.acquire run idle (by simp [hpc, Pc.holds, or_comm, or_assoc])
        ⟨here.1, here.2.2⟩ (plain (by simp [hpc, Pc.hands]) _) (by simp [hpc])
  | count locked c rest => exact inv.count run hpc idle
  | unlockFound todo c =>
    rw [hpc] at here
    cases todo with
    | nil =>
      exact inv.goto run idle (by simp [hpc, Pc.holds]) ⟨here.1, here.2.1⟩
        (plain (by simp [hpc, Pc.hands]) _) (by simp [hpc])
    | cons x todo =>
      obtain ⟨mem, dead, nodup⟩ := here
      have hx : x ≠ s.proc t ∧ x ∉ todo := by
        simp only [List.nodup_cons, List.mem_cons, not_or] at nodup
        exact ⟨fun h => nodup.1.1 h.symm, nodup.2.1⟩
      refine inv.release run idle (by simp [hpc, Pc.holds]) ?_ ⟨mem, dead, ?_⟩
        (plain (by simp [hpc, Pc.hands]) _) (by simp [hpc])
      · intro k hk
        rcases List.mem_cons.mp hk with rfl | hk
        · exact ⟨hx.1.symm, by simp [hpc, Pc.holds]⟩
        · refine ⟨?_, by simp [hpc, Pc.holds, hk]⟩
          rintro rfl
          exact hx.2 hk
      · exact nodup.sublist (by simp)
  | detach c => exact inv.detach run hpc idle
  | lockInit c =>
    rw [hpc] at here
    refine inv.acquire run idle (by simp [hpc, Pc.holds]) ⟨here.1, here.2.1⟩ ?_ (by simp [hpc])
    rintro d (h | h)
    · rw [hpc] at h
      cases h
      exact Or.inr rfl
    · simp [hpc] at h
  | splice c => exact inv.splice run hpc idle
  | reparent todo =>
    cases todo with
    | nil =>
      by_cases h : s.proc t = init
      · simp only [if_pos h]
        exact inv.goto run idle (by simp [hpc, Pc.holds]) trivial
          (plain (by simp [hpc, Pc.hands]) _) (by simp [hpc])
      · simp only [if_neg h]
        exact inv.goto run idle (by simp [hpc, Pc.holds]) h
          (plain (by simp [hpc, Pc.hands]) _) (by simp [hpc])
    | cons x todo => exact inv.reparent run hpc idle
  | unlockInit =>
    rw [hpc] at here
    have other : s.proc t ≠ init := here
    exact inv.release run idle (by simp [hpc, Pc.holds]) (by simpa [hpc, Pc.holds] using other)
      trivial (plain (by simp [hpc, Pc.hands]) _) (by simp [hpc])
  | unlockOwn =>
    exact inv.release run idle (by simp [hpc, Pc.holds]) (by simp [Pc.holds]) trivial
      (plain (by simp [hpc, Pc.hands]) _) (by simp [hpc])
  | free =>
    dsimp only
    split <;> exact inv.goto run idle (by simp [Pc.holds]) trivial
      (plain (by simp [hpc, Pc.hands]) _) (by simp [hpc])
  | wake => exact inv.wake run hpc idle
  | vanishLock =>
    exact inv.acquire run idle (by simp [Pc.holds]) trivial (plain (by simp [hpc, Pc.hands]) _)
      (by simp [hpc])
  | vanishCount =>
    exact inv.goto run idle (by simp [hpc, Pc.holds]) rfl (plain (by simp [hpc, Pc.hands]) _)
      (by simp [hpc])
  | vanishAct n => exact inv.vanishAct run hpc idle
  | killLock =>
    exact inv.acquire run idle (by simp [Pc.holds]) trivial (plain (by simp [hpc, Pc.hands]) _)
      (by simp [hpc])
  | kill => exact inv.kill run hpc idle
  | killUnlock =>
    exact inv.release run idle (by simp [hpc, Pc.holds]) (by simp [Pc.holds]) trivial
      (plain (by simp [hpc, Pc.hands]) _) (by simp [hpc])

end Inv

theorem Inv.step {s : State} (inv : Inv s) (i : Nat × Choice) : Inv (step s i) := by
  unfold Exit.step
  split
  · rename_i run
    exact inv.next run i.2
  · exact inv

end OsKernel.Exit
