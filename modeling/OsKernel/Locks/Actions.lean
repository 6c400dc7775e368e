/-
What each action does to the state, and that it gives the other threads what they rely on.

`does_of` reduces the invariant to the thread that acts: the others keep what they have.
Most actions are `Local`: they leave the process tree alone. The edits of the tree follow,
one lemma each, with the preconditions under which a handler makes them.
-/

import Mathlib.Data.List.Nodup
import OsKernel.Locks.System

namespace OsKernel.Locks

open Mutex

variable {order tidy : Prop} {s s' : State} {t u p c : Nat} {m : Mutex}

theorem live_iff : s.live t = true ↔ s.alive t = true ∧ s.proc t ≠ root := by
  simp [State.live]

theorem not_live_iff : s.live t = false ↔ (s.alive t = true → s.proc t = root) := by
  cases alive : s.alive t <;> simp [State.live, alive]

/-- A thread that spins and is not terminated makes calls. -/
theorem Base.live_of_spins (base : Base s) (alive : s.alive t = true) (spins : s.spins t = some m) :
    s.live t = true :=
  live_iff.mpr ⟨alive, (base.spinners t m spins).2⟩

/-- What a thread does keeps the invariant when it gives the others what they rely on and
asks for mutexes in their order. -/
theorem does_of {a : Act} {r : Answer a} {Q : Answer a → State → Prop} (inv : Inv order tidy s)
    (eq : exec t a s = (s', r)) (base : Base s') (guar : (system order tidy).Guarantees t s s')
    (own : order → ∀ m, s'.alive t = true → s'.spins t = some m →
      Ordered s' t m ∧ KeepsOrder t (.call m) s')
    (held : tidy → ∀ m u, s'.owner m = some u → s'.alive u = true)
    (post : s'.live t = true → Q r s') : (system order tidy).Does t a s Q s' r := by
  -- what a spinning thread other than the one that acts relies on
  have before : ∀ u m, u ≠ t → s'.alive u = true → s'.spins u = some m →
      s.live u = true ∧ Rely u s s' := by
    intro u m ne alive spins
    obtain ⟨stay, start⟩ := guar u ne (base.live_of_spins alive spins)
    cases was : s.live u with
    | true => exact ⟨rfl, stay was⟩
    | false =>
        have idle := (start was).idle
        rw [spins] at idle
        exact absurd idle (by simp)
  refine ⟨eq, ⟨base, ?_, ?_, held⟩, guar, post⟩
  · intro ord u live m spins
    obtain ⟨alive, -⟩ := live_iff.mp live
    by_cases same : u = t
    · subst same
      exact (own ord m alive spins).1
    · obtain ⟨was, rely⟩ := before u m same alive spins
      exact (inv.ordered ord u was m (by rw [← rely.spins, spins])).of_rely rely
  · intro ord v w c aliveV aliveW initV ne spinsV otherW spinsW
    by_cases sameV : v = t
    · subst sameV
      exact (own ord _ aliveV spinsV).2.1 initV c ne rfl w aliveW otherW spinsW
    by_cases sameW : w = t
    · subst sameW
      exact (own ord _ aliveW spinsW).2.2 otherW rfl v aliveV initV c ne spinsV
    obtain ⟨wasV, relyV⟩ := before v _ sameV aliveV spinsV
    obtain ⟨wasW, relyW⟩ := before w _ sameW aliveW spinsW
    rw [relyV.proc] at initV
    rw [relyV.spins] at spinsV
    rw [relyW.proc] at otherW
    rw [relyW.spins] at spinsW
    exact inv.clear ord v w c (live_iff.mp wasV).1 (live_iff.mp wasW).1 initV ne spinsV otherW spinsW

/-! ### Counts -/

theorem exited_of_aliveCount (base : Base s) (none : s.aliveCount c = 0) : s.Exited c := by
  intro u alive same
  have mem : u ∈ (List.range s.threadCount).filter fun t => s.alive t && s.proc t = c := by
    simp [(base.threads u alive).1, alive, same]
  exact List.ne_nil_of_mem mem (List.eq_nil_of_length_eq_zero none)

theorem alone_of_aliveCount (base : Base s) (alive : s.alive t = true)
    (one : s.aliveCount (s.proc t) = 1) : s.Alone t := by
  intro u aliveU same
  have mem : ∀ v, s.alive v = true → s.proc v = s.proc t →
      v ∈ (List.range s.threadCount).filter fun v => s.alive v && s.proc v = s.proc t := by
    intro v aliveV sameV
    simp [(base.threads v aliveV).1, aliveV, sameV]
  obtain ⟨w, only⟩ := List.length_eq_one_iff.mp one
  have first := mem u aliveU same
  have second := mem t alive rfl
  rw [only, List.mem_singleton] at first second
  rw [first, second]

/-! ### Actions that leave the process tree alone -/

structure SameTree (s s' : State) : Prop where
  threadCount : s'.threadCount = s.threadCount
  procCount : s'.procCount = s.procCount
  proc : s'.proc = s.proc
  alive : s'.alive = s.alive
  children : s'.children = s.children
  gone : s'.gone = s.gone

structure Local (t : Nat) (s s' : State) : Prop extends SameTree s s' where
  spins : ∀ u, u ≠ t → s'.spins u = s.spins u
  owner : ∀ u, u ≠ t → ∀ m, m ≠ inputLock → (s'.owner m = some u ↔ s.owner m = some u)
  input : ∀ u, u ≠ t → s'.owner inputLock = some u → s.owner inputLock = some u

theorem Local.of_owned (h : Local t s s') (ne : u ≠ t) (own : s'.owner m = some u) :
    s.owner m = some u := by
  by_cases input : m = inputLock
  · subst input
    exact h.input u ne own
  · exact (h.owner u ne m input).mp own

theorem SameTree.alone (h : SameTree s s') : s'.Alone t ↔ s.Alone t := by
  simp only [State.Alone, h.alive, h.proc]

theorem SameTree.exited (h : SameTree s s') : s'.Exited c ↔ s.Exited c := by
  simp only [State.Exited, h.alive, h.proc]

theorem SameTree.live (h : SameTree s s') : s'.live = s.live := by
  funext u
  simp only [State.live, h.alive, h.proc]

theorem Local.rely (h : Local t s s') (ne : u ≠ t) : Rely u s s' where
  owner := h.owner u ne
  input := h.input u ne
  spins := h.spins u ne
  proc := by rw [h.proc]
  children _ := by rw [h.children]
  alone := h.alone.mpr
  grows _ := by rw [h.children]; exact List.Subset.refl _
  exited _ _ _ := h.exited.mpr
  gone c := by rw [h.gone]; exact id

theorem Local.base (h : Local t s s') (base : Base s) (live : s.live t = true) : Base s' := by
  obtain ⟨alive, other⟩ := live_iff.mp live
  have bound := (base.threads t alive).1
  refine ⟨?_, ?_, ?_, ?_, ?_, ?_, ?_⟩
  · rw [h.threadCount, h.procCount, h.proc, h.alive, h.gone]
    exact base.threads
  · intro m u own
    rw [h.threadCount]
    by_cases same : u = t
    · rwa [same]
    · exact base.owners m u (h.of_owned same own)
  · intro u m spins
    rw [h.threadCount, h.proc]
    by_cases same : u = t
    · rw [same]
      exact ⟨bound, other⟩
    · rw [h.spins u same] at spins
      exact base.spinners u m spins
  · rw [h.procCount, h.children, h.gone]
    exact base.lists
  · rw [h.children]
    exact base.nodup
  · rw [h.children]
    exact base.apart
  · rw [h.procCount, h.gone]
    exact base.reaped

theorem does_local {a : Act} {r : Answer a} {Q : Answer a → State → Prop}
    (inv : Inv order tidy s) (live : s.live t = true) (eq : exec t a s = (s', r)) (h : Local t s s')
    (own : order → ∀ m, s'.spins t = some m → Ordered s' t m ∧ KeepsOrder t (.call m) s')
    (post : Q r s') : (system order tidy).Does t a s Q s' r := by
  refine does_of inv eq (h.base inv.toBase live) ?_ (fun ord m _ => own ord m) ?_ fun _ => post
  · intro u ne now
    refine ⟨fun _ => h.rely ne, fun was => ?_⟩
    have now : s'.live u = true := now
    have was : s.live u = false := was
    rw [h.live, was] at now
    exact absurd now (by simp)
  · intro tid m u own
    rw [h.alive]
    by_cases same : u = t
    · rw [same]
      exact (live_iff.mp live).1
    · exact inv.held tid m u (h.of_owned same own)

theorem local_refl (t : Nat) (s : State) : Local t s s :=
  ⟨⟨rfl, rfl, rfl, rfl, rfl, rfl⟩, fun _ _ => rfl, fun _ _ _ _ => Iff.rfl, fun _ _ => id⟩

theorem local_shift (t : Nat) (s : State) : Local t s s.shift :=
  ⟨⟨rfl, rfl, rfl, rfl, rfl, rfl⟩, fun _ _ => rfl, fun _ _ _ _ => Iff.rfl, fun _ _ => id⟩

theorem local_call (t : Nat) (s : State) (m : Mutex) : Local t s (s.call t m) :=
  ⟨⟨rfl, rfl, rfl, rfl, rfl, rfl⟩, fun _ ne => Function.update_of_ne ne _ _, fun _ _ _ _ => Iff.rfl,
    fun _ _ => id⟩

theorem owner_hold (free : s.owner m = none) (ne : u ≠ t) (m' : Mutex) :
    (s.hold t m).owner m' = some u ↔ s.owner m' = some u := by
  by_cases same : m' = m
  · subst same
    simp [State.hold, free, ne.symm]
  · simp [State.hold, same]

theorem local_hold (free : s.owner m = none) : Local t s (s.hold t m) :=
  ⟨⟨rfl, rfl, rfl, rfl, rfl, rfl⟩, fun _ _ => rfl, fun _ ne m' _ => owner_hold free ne m',
    fun _ ne => (owner_hold free ne _).mp⟩

theorem local_take (free : s.owner m = none) : Local t s (s.take t m) :=
  ⟨⟨rfl, rfl, rfl, rfl, rfl, rfl⟩, fun _ ne => Function.update_of_ne ne _ _,
    fun _ ne m' _ => owner_hold free ne m', fun _ ne => (owner_hold free ne _).mp⟩

/-- A thread unlocks a mutex that it holds; of `inputLock` it may be mistaken. -/
theorem local_unlock (own : m ≠ inputLock → s.owner m = some t) : Local t s (s.unlock m) := by
  refine ⟨⟨rfl, rfl, rfl, rfl, rfl, rfl⟩, fun _ _ => rfl, fun u ne m' other => ?_, fun u ne => ?_⟩
  · by_cases same : m' = m
    · subst same
      simp [State.unlock, own other, ne.symm]
    · simp [State.unlock, same]
  · by_cases same : inputLock = m
    · subst same
      simp [State.unlock]
    · simp [State.unlock, same]

/-! ### Edits of the process tree -/

theorem guarantees_of (rely : ∀ u, u ≠ t → s.live u = true → Rely u s s')
    (start : ∀ u, s'.live u = true → s.live u = false → Ready u s') :
    (system order tidy).Guarantees t s s' :=
  fun u ne now => ⟨rely u ne, start u now⟩

theorem pushBack_children (fresh : p ≠ s.procCount) (q : Nat) :
    (s.pushBack p).children q =
      if q = s.procCount then [] else if q = p then s.children p ++ [s.procCount] else s.children q := by
  by_cases new : q = s.procCount
  · simp [State.pushBack, new]
  by_cases same : q = p
  · subst same
    simp [State.pushBack, new]
  · simp [State.pushBack, new, same]

theorem base_pushBack (base : Base s) (bound : p < s.procCount) : Base (s.pushBack p) := by
  have fresh : p ≠ s.procCount := Nat.ne_of_lt bound
  have old : ∀ q c, c ∈ (s.pushBack p).children q →
      c ∈ s.children q ∨ q = p ∧ c = s.procCount := by
    intro q c mem
    rw [pushBack_children fresh] at mem
    split at mem
    · exact absurd mem List.not_mem_nil
    · split at mem
      · next same =>
          rw [List.mem_append, List.mem_singleton] at mem
          rw [same]
          exact mem.imp_right fun eq => ⟨rfl, eq⟩
      · exact .inl mem
  have new_notMem : ∀ q, s.procCount ∉ s.children q := fun q mem =>
    Nat.lt_irrefl _ (base.lists q _ mem).2.1
  refine ⟨fun t alive => ?_, base.owners, base.spinners, fun q c mem => ?_, fun q => ?_, ?_,
    fun q gone => Nat.lt_succ_of_lt (base.reaped q gone)⟩
  · obtain ⟨bound, proc, stays⟩ := base.threads t alive
    exact ⟨bound, Nat.lt_succ_of_lt proc, stays⟩
  · rcases old q c mem with mem | ⟨rfl, rfl⟩
    · obtain ⟨lt, bound, stays⟩ := base.lists q c mem
      exact ⟨lt, Nat.lt_succ_of_lt bound, stays⟩
    · refine ⟨bound, Nat.lt_succ_self _, ?_⟩
      cases stays : s.gone s.procCount with
      | false => exact stays
      | true => exact absurd (base.reaped _ stays) (Nat.lt_irrefl _)
  · rw [pushBack_children fresh]
    split
    · exact List.nodup_nil
    · split
      · rw [List.nodup_append]
        refine ⟨base.nodup p, List.nodup_singleton _, fun a mem b mem' same => ?_⟩
        rw [List.mem_singleton.mp mem'] at same
        exact new_notMem p (same ▸ mem)
      · exact base.nodup q
  · intro q q' c mem mem'
    rcases old q c mem with was | ⟨same, new⟩
    · rcases old q' c mem' with was' | ⟨-, new⟩
      · exact base.apart q q' c was was'
      · exact absurd (new ▸ was) (new_notMem q)
    · rcases old q' c mem' with was' | ⟨same', -⟩
      · exact absurd (new ▸ was') (new_notMem q')
      · rw [same, same']

theorem rely_pushBack (base : Base s) (proc : s.proc t = p) (alive : s.alive t = true)
    (alone : s.Alone t) (ne : u ≠ t) (live : s.live u = true) : Rely u s (s.pushBack p) := by
  have bound : p < s.procCount := proc ▸ (base.threads t alive).2.1
  obtain ⟨aliveU, -⟩ := live_iff.mp live
  -- a thread of another process, whose list stays as it is
  have other : s.proc u ≠ p := fun same => ne (alone u aliveU (same.trans proc.symm))
  have same : (s.pushBack p).children (s.proc u) = s.children (s.proc u) := by
    rw [pushBack_children (Nat.ne_of_lt bound), if_neg (Nat.ne_of_lt (base.threads u aliveU).2.1),
      if_neg other]
  refine ⟨fun _ _ => Iff.rfl, id, rfl, rfl, fun _ => same, id, fun _ => ?_, fun _ _ _ => id,
    fun _ => id⟩
  rw [same]
  exact List.Subset.refl _

/-- An edit of lists that keeps what the invariant says of them. -/
theorem base_children {f : Nat → List Nat} (base : Base s)
    (old : ∀ q c, c ∈ f q → ∃ q', c ∈ s.children q' ∧ q < c) (nodup : ∀ q, (f q).Nodup)
    (apart : ∀ q q' c, c ∈ f q → c ∈ f q' → q = q') : Base { s with children := f } := by
  refine ⟨base.threads, base.owners, base.spinners, fun q c mem => ?_, nodup, apart, base.reaped⟩
  obtain ⟨q', mem', lt⟩ := old q c mem
  exact ⟨lt, (base.lists q' c mem').2⟩

/-- A sublist in the place of the list of `p`. -/
theorem base_shorter {l : List Nat} (base : Base s) (sub : l.Sublist (s.children p)) :
    Base { s with children := Function.update s.children p l } := by
  have old : ∀ q c, c ∈ Function.update s.children p l q → c ∈ s.children q := by
    intro q c mem
    by_cases same : q = p
    · subst same
      rw [Function.update_self] at mem
      exact sub.subset mem
    · rwa [Function.update_of_ne same] at mem
  refine base_children base (fun q c mem => ⟨q, old q c mem, (base.lists q c (old q c mem)).1⟩)
    (fun q => ?_) fun q q' c mem mem' => base.apart q q' c (old q c mem) (old q' c mem')
  by_cases same : q = p
  · subst same
    rw [Function.update_self]
    exact (base.nodup q).sublist sub
  · rw [Function.update_of_ne same]
    exact base.nodup q

/-- An edit of lists that leaves that of `u` as it is. -/
theorem rely_children {f : Nat → List Nat} (same : f (s.proc u) = s.children (s.proc u)) :
    Rely u s { s with children := f } := by
  refine ⟨fun _ _ => Iff.rfl, id, rfl, rfl, fun _ => same, id, fun _ => ?_, fun _ _ _ => id,
    fun _ => id⟩
  change _ ⊆ f (s.proc u)
  rw [same]
  exact List.Subset.refl _

theorem base_popBack (base : Base s) : Base (s.popBack p) :=
  base_shorter base (List.dropLast_sublist _)

theorem rely_popBack (proc : s.proc t = p) (alone : s.Alone t) (ne : u ≠ t)
    (live : s.live u = true) : Rely u s (s.popBack p) := by
  refine rely_children (Function.update_of_ne (fun same => ne ?_) _ _)
  exact alone u (live_iff.mp live).1 (same.trans proc.symm)

/-- What a thread knows of the process for which it starts a thread: it is its own, or a
child that has none yet. -/
def State.MayStart (s : State) (t p : Nat) : Prop :=
  p = s.proc t ∨ p ∈ s.children (s.proc t) ∧ s.Alone t ∧ s.Exited p

theorem alive_ready_of_ne {v : Nat} (old : v ≠ s.threadCount) :
    (s.ready p).alive v = s.alive v :=
  Function.update_of_ne old _ _

theorem alive_ready {v : Nat} (alive : (s.ready p).alive v = true) :
    v = s.threadCount ∨ v ≠ s.threadCount ∧ s.alive v = true := by
  by_cases new : v = s.threadCount
  · exact .inl new
  · exact .inr ⟨new, (alive_ready_of_ne new).symm.trans alive⟩

theorem proc_ready {v : Nat} (old : v ≠ s.threadCount) : (s.ready p).proc v = s.proc v :=
  Function.update_of_ne old _ _

theorem proc_ready_new : (s.ready p).proc s.threadCount = p := Function.update_self _ _ _

theorem base_ready (base : Base s) (alive : s.alive t = true) (may : s.MayStart t p) :
    Base (s.ready p) := by
  have known : p < s.procCount ∧ s.gone p = false := by
    rcases may with rfl | ⟨mem, -⟩
    · exact (base.threads t alive).2
    · exact (base.lists _ _ mem).2
  refine ⟨fun v alive => ?_, fun m v own => Nat.lt_succ_of_lt (base.owners m v own),
    fun v m spins => ?_, base.lists, base.nodup, base.apart, base.reaped⟩
  · rcases alive_ready alive with rfl | ⟨old, alive⟩
    · rw [proc_ready_new]
      exact ⟨Nat.lt_succ_self _, known⟩
    · obtain ⟨bound, rest⟩ := base.threads v alive
      rw [proc_ready old]
      exact ⟨Nat.lt_succ_of_lt bound, rest⟩
  · obtain ⟨bound, other⟩ := base.spinners v m spins
    rw [proc_ready (Nat.ne_of_lt bound)]
    exact ⟨Nat.lt_succ_of_lt bound, other⟩

theorem rely_ready (base : Base s) (alive : s.alive t = true) (may : s.MayStart t p) (ne : u ≠ t)
    (live : s.live u = true) : Rely u s (s.ready p) := by
  obtain ⟨aliveU, -⟩ := live_iff.mp live
  have old : u ≠ s.threadCount := Nat.ne_of_lt (base.threads u aliveU).1
  have proc : (s.ready p).proc u = s.proc u := proc_ready old
  refine ⟨fun _ _ => Iff.rfl, id, rfl, proc, fun _ => rfl, fun alone v aliveV same => ?_,
    fun _ => List.Subset.refl _, fun why c mem exited v aliveV => ?_, fun _ => id⟩
  · rw [proc] at same
    rcases alive_ready aliveV with rfl | ⟨oldV, aliveV⟩
    · -- the new thread is in no process with a lone thread other than `t`
      rw [proc_ready_new] at same
      rcases may with own | ⟨-, -, none⟩
      · exact absurd (alone t alive (own.symm.trans same)).symm ne
      · exact absurd same.symm (none u aliveU)
    · rw [proc_ready oldV] at same
      exact alone v aliveV same
  · rcases alive_ready aliveV with rfl | ⟨oldV, aliveV⟩
    · rw [proc_ready_new]
      rintro rfl
      rcases may with own | ⟨mem', alone, -⟩
      · exact exited t alive own.symm
      · exact ne (alone u aliveU (base.apart _ _ _ mem mem'))
    · rw [proc_ready oldV]
      exact exited v aliveV

theorem ready_ready (base : Base s) (now : (s.ready p).live u = true) (was : s.live u = false) :
    Ready u (s.ready p) := by
  obtain ⟨alive, other⟩ := live_iff.mp now
  rcases alive_ready alive with rfl | ⟨old, alive⟩
  · refine ⟨holds_nil.mpr fun m own => Nat.lt_irrefl _ (base.owners m _ own), ?_⟩
    cases spins : (s.ready p).spins s.threadCount with
    | none => rfl
    | some m => exact absurd (base.spinners _ m spins).1 (Nat.lt_irrefl _)
  · rw [proc_ready old] at other
    exact absurd (not_live_iff.mp was alive) other

theorem gone_detach {q : Nat} (ne : q ≠ c) : (s.detach p c).gone q = s.gone q :=
  Function.update_of_ne ne _ _

theorem base_detach (base : Base s) (mem : c ∈ s.children p) (exited : s.Exited c) :
    Base (s.detach p c) := by
  have shorter := base_shorter (l := (s.children p).erase c) base List.erase_sublist
  have out : ∀ q, c ∉ Function.update s.children p ((s.children p).erase c) q := by
    intro q mem'
    by_cases same : q = p
    · subst same
      rw [Function.update_self] at mem'
      exact (base.nodup q).not_mem_erase mem'
    · rw [Function.update_of_ne same] at mem'
      exact same (base.apart q p c mem' mem)
  refine ⟨fun v alive => ?_, base.owners, base.spinners, fun q c' mem' => ?_, shorter.nodup,
    shorter.apart, fun q gone => ?_⟩
  · obtain ⟨bound, proc, stays⟩ := base.threads v alive
    exact ⟨bound, proc, (gone_detach (exited v alive)).trans stays⟩
  · obtain ⟨lt, bound, stays⟩ := shorter.lists q c' mem'
    have ne : c' ≠ c := fun same => out q (same ▸ mem')
    exact ⟨lt, bound, (gone_detach ne).trans stays⟩
  · by_cases same : q = c
    · subst same
      exact (base.lists p q mem).2.1
    · exact base.reaped q ((gone_detach same).symm.trans gone)

theorem rely_detach (own : s.owner (pcb p) = some t) (proc : s.proc t = p) (alive : s.alive t = true)
    (ne : u ≠ t) : Rely u s (s.detach p c) := by
  have lists : s.proc u ≠ p → (s.detach p c).children (s.proc u) = s.children (s.proc u) :=
    fun other => Function.update_of_ne other _ _
  refine ⟨fun _ _ => Iff.rfl, id, rfl, rfl, fun own' => lists fun same => ?_, id, fun alone => ?_,
    fun _ _ _ => id, fun q gone => ?_⟩
  · rw [same, own] at own'
    exact ne (Option.some.inj own').symm
  · rw [lists fun same => ne (alone t alive (proc.trans same.symm)).symm]
    exact List.Subset.refl _
  · by_cases same : q = c
    · subst same
      exact Function.update_self _ _ _
    · exact (gone_detach same).trans gone

/-- The list that takes the orphans. -/
def State.heir (s : State) (p : Nat) : Nat := if s.children init = [] then p else init

theorem splice_children (q : Nat) : (s.splice p c).children q =
    if q = c then []
    else if s.children c ≠ [] ∧ q = s.heir p then s.children init ++ s.children c
    else s.children q := by
  change Function.update (if s.children c = [] then s.children
    else Function.update s.children (s.heir p) (s.children init ++ s.children c)) c [] q = _
  by_cases same : q = c
  · rw [same, Function.update_self, if_pos rfl]
  rw [Function.update_of_ne same, if_neg same]
  by_cases none : s.children c = []
  · simp [none]
  by_cases heir : q = s.heir p
  · simp [none, heir]
  · simp [none, heir]

/-- Where a child is after a hand-over. -/
theorem mem_splice {q c' : Nat} (mem : c' ∈ (s.splice p c).children q) :
    c' ∈ s.children q ∧ q ≠ c ∨ q = s.heir p ∧ (c' ∈ s.children init ∨ c' ∈ s.children c) := by
  rw [splice_children] at mem
  split at mem
  · exact absurd mem List.not_mem_nil
  · next other =>
      split at mem
      · next heir => exact .inr ⟨heir.2, List.mem_append.mp mem⟩
      · exact .inl ⟨mem, other⟩

theorem heir_of_mem {c' : Nat} (mem : c' ∈ s.children init) : s.heir p = init :=
  if_neg (List.ne_nil_of_mem mem)

theorem base_splice (base : Base s) (lt : p < c) (low : init < c) : Base (s.splice p c) := by
  have below : s.heir p < c := by
    unfold State.heir
    split
    · exact lt
    · exact low
  have one : ∀ q q' c', c' ∈ s.children q → q ≠ c → q' = s.heir p →
      c' ∈ s.children init ∨ c' ∈ s.children c → q = q' := by
    intro q q' c' mem other heir mem'
    rcases mem' with mem' | mem'
    · rw [heir, heir_of_mem mem']
      exact base.apart q init c' mem mem'
    · exact absurd (base.apart q c c' mem mem') other
  refine base_children base (fun q c' mem => ?_) (fun q => ?_) fun q q' c' mem mem' => ?_
  · rcases mem_splice mem with ⟨mem, -⟩ | ⟨heir, mem | mem⟩
    · exact ⟨q, mem, (base.lists q c' mem).1⟩
    · refine ⟨init, mem, ?_⟩
      rw [heir, heir_of_mem mem]
      exact (base.lists init c' mem).1
    · refine ⟨c, mem, ?_⟩
      rw [heir]
      exact Nat.lt_trans below (base.lists c c' mem).1
  · change ((s.splice p c).children q).Nodup
    rw [splice_children]
    split
    · exact List.nodup_nil
    · split
      · refine List.nodup_append.mpr ⟨base.nodup init, base.nodup c, fun a mem b mem' same => ?_⟩
        exact absurd (base.apart init c a mem (same ▸ mem')) (Nat.ne_of_lt low)
      · exact base.nodup q
  · rcases mem_splice mem with ⟨was, other⟩ | ⟨heir, was⟩
    · rcases mem_splice mem' with ⟨was', -⟩ | ⟨heir', was'⟩
      · exact base.apart q q' c' was was'
      · exact one q q' c' was other heir' was'
    · rcases mem_splice mem' with ⟨was', other'⟩ | ⟨heir', -⟩
      · exact (one q' q c' was' other' heir was).symm
      · exact heir.trans heir'.symm

theorem rely_splice (base : Base s) (own : s.owner (pcb p) = some t) (proc : s.proc t = p)
    (alive : s.alive t = true) (ownInit : s.owner (pcb init) = some t) (gone : s.gone c = true)
    (ne : u ≠ t) (live : s.live u = true) : Rely u s (s.splice p c) := by
  obtain ⟨aliveU, -⟩ := live_iff.mp live
  have other : s.proc u ≠ c := fun same => by
    have stays := (base.threads u aliveU).2.2
    rw [same, gone] at stays
    exact absurd stays (by simp)
  have ownHeir : s.owner (pcb (s.heir p)) = some t := by
    unfold State.heir
    split
    · exact own
    · exact ownInit
  refine ⟨fun _ _ => Iff.rfl, id, rfl, rfl, fun own' => ?_, id, fun alone => ?_, fun _ _ _ => id,
    fun _ => id⟩
  · rw [splice_children, if_neg other, if_neg]
    rintro ⟨-, heir⟩
    rw [heir, ownHeir] at own'
    exact ne (Option.some.inj own').symm
  · rw [splice_children, if_neg other]
    split
    · next taken =>
        have heir := taken.2
        unfold State.heir at heir
        split at heir
        · exact absurd (alone t alive (proc.trans heir.symm)).symm ne
        · rw [heir]
          exact List.subset_append_left _ _
    · exact List.Subset.refl _

/-! ### Threads that end -/

/-- Threads are terminated, and nothing else happens. -/
theorem base_alive {f : Nat → Bool} (base : Base s) (fewer : ∀ u, f u = true → s.alive u = true) :
    Base { s with alive := f } :=
  ⟨fun u alive => base.threads u (fewer u alive), base.owners, base.spinners, base.lists, base.nodup,
    base.apart, base.reaped⟩

theorem rely_alive {f : Nat → Bool} (fewer : ∀ v, f v = true → s.alive v = true) :
    Rely u s { s with alive := f } :=
  ⟨fun _ _ => Iff.rfl, id, rfl, rfl, fun _ => rfl, fun alone v alive => alone v (fewer v alive),
    fun _ => List.Subset.refl _, fun _ _ _ exited v alive => exited v (fewer v alive), fun _ => id⟩

theorem fewer_terminate (v : Nat) (alive : (s.terminate t).alive v = true) : s.alive v = true := by
  by_cases same : v = t
  · subst same
    simp [State.terminate] at alive
  · exact (Function.update_of_ne same _ _).symm.trans alive

theorem fewer_terminateSiblings (v : Nat) (alive : (s.terminateSiblings t).alive v = true) :
    s.alive v = true := by
  simp only [State.terminateSiblings, Bool.and_eq_true] at alive
  exact alive.1

end OsKernel.Locks
