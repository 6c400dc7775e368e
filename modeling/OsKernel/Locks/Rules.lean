/-
The rules for pieces of handlers.

`Meets` is the triple for a piece that may end early: where it does, the thread holds
nothing. `At t p H F` says that thread `t` of process `p` holds the mutexes `H`, spins on
nothing, and knows `F` of the process tree; `Fact` says that `F` is not broken by the others,
nor by what the thread does with mutexes. There is one rule an action; `Keeps` is for pieces
that give back the mutexes they take.
-/

import OsKernel.Locks.Actions

namespace OsKernel.Locks

open Mutex

variable {order tidy : Prop} {s s' : State} {t u p c : Nat} {m : Mutex} {H : List Mutex}
variable {F P : State → Prop} {α β : Type}

def Meets (order tidy : Prop) (t : Nat) (P : State → Prop) (code : Code α)
    (Q : α → State → Prop) : Prop :=
  (system order tidy).Triple t P code.run fun x s => x.elim (Ready t s) (Q · s)

namespace Meets

variable {Q Q' : α → State → Prop}

theorem pure {x : α} (imp : ∀ s, Inv order tidy s → P s → Q x s) :
    Meets order tidy t P (Pure.pure x) Q :=
  Sys.Triple.ret imp

theorem bind {R : β → State → Prop} {code : Code α} {next : α → Code β}
    (first : Meets order tidy t P code Q) (then_ : ∀ x, Meets order tidy t (Q x) (next x) R) :
    Meets order tidy t P (code >>= next) R := by
  refine Sys.Triple.bind first fun x => ?_
  cases x with
  | none => exact Sys.Triple.ret fun _ _ h => h
  | some x => exact then_ x

theorem conseq {code : Code α} {P' : State → Prop} (meets : Meets order tidy t P code Q)
    (pre : ∀ s, Inv order tidy s → P' s → P s) (post : ∀ x s, Q x s → Q' x s) :
    Meets order tidy t P' code Q' := by
  refine Sys.Triple.conseq meets pre fun x s => ?_
  cases x with
  | none => exact id
  | some x => exact post x s

/-- A fact that does not depend on the state. -/
theorem known {code : Code α} {A : Prop} (meets : A → Meets order tidy t P code Q) :
    Meets order tidy t (fun s => A ∧ P s) code Q :=
  fun s inv live h => meets h.1 s inv live h.2

theorem exists_ {code : Code α} {P : β → State → Prop}
    (meets : ∀ x, Meets order tidy t (P x) code Q) :
    Meets order tidy t (fun s => ∃ x, P x s) code Q := by
  intro s inv live h
  obtain ⟨x, h⟩ := h
  exact meets x s inv live h

/-- A fact that follows from what is known of the state. -/
theorem learn {code : Code α} {A : Prop} (learns : ∀ s, Inv order tidy s → P s → A)
    (meets : A → Meets order tidy t P code Q) : Meets order tidy t P code Q :=
  fun s inv live h => meets (learns s inv h) s inv live h

theorem ite {b : Prop} [Decidable b] {yes no : Code α} (left : b → Meets order tidy t P yes Q)
    (right : ¬b → Meets order tidy t P no Q) : Meets order tidy t P (if b then yes else no) Q := by
  split
  · next h => exact left h
  · next h => exact right h

theorem act {a : Act} {Q : Answer a → State → Prop} (stable : (system order tidy).Stable t P)
    (does : ∀ s, Inv order tidy s → s.live t = true → Admits order tidy t a s → P s →
      ∃ s' r, (system order tidy).Does t a s Q s' r) : Meets order tidy t P (Locks.act a) Q :=
  Sys.Triple.bind (Sys.Triple.perform stable does) fun _ => Sys.Triple.ret fun _ _ h => h

/-- The piece ends early. -/
theorem failure (imp : ∀ s, Inv order tidy s → P s → Ready t s) :
    Meets order tidy t P (Alternative.failure : Code α) Q :=
  Sys.Triple.ret imp

end Meets

/-! ### What a thread knows -/

structure Fact (t p : Nat) (H : List Mutex) (F : State → Prop) : Prop where
  same : ∀ s s', SameTree s s' → F s → F s'
  stable : ∀ s s', s.proc t = p → (pcb p ∈ H → s.owner (pcb p) = some t) → Rely t s s' → F s → F s'

theorem fact_true : Fact t p H fun _ => True := ⟨fun _ _ _ h => h, fun _ _ _ _ _ h => h⟩

theorem Fact.cons (fact : Fact t p H F) (m : Mutex) : Fact t p (m :: H) F :=
  ⟨fact.same, fun s s' proc own => fact.stable s s' proc fun mem => own (List.mem_cons_of_mem m mem)⟩

theorem Fact.and {G : State → Prop} (fact : Fact t p H F) (other : Fact t p H G) :
    Fact t p H fun s => F s ∧ G s :=
  ⟨fun s s' same h => ⟨fact.same s s' same h.1, other.same s s' same h.2⟩,
    fun s s' proc own rely h => ⟨fact.stable s s' proc own rely h.1, other.stable s s' proc own rely h.2⟩⟩

structure At (t p : Nat) (H : List Mutex) (F : State → Prop) (s : State) : Prop where
  proc : s.proc t = p
  holds : Holds t H s
  idle : s.spins t = none
  fact : F s

theorem At.congr {H' : List Mutex} (h : At t p H F s) (same : ∀ m, m ∈ H ↔ m ∈ H') :
    At t p H' F s :=
  ⟨h.proc, h.holds.congr same, h.idle, h.fact⟩

theorem At.ready (h : At t p [] F s) : Ready t s := ⟨h.holds, h.idle⟩

theorem at_stable (fact : Fact t p H F) : (system order tidy).Stable t (At t p H F) := by
  intro s s' h rely
  have rely : Rely t s s' := rely
  refine ⟨rely.proc.trans h.proc, h.holds.of_rely rely, rely.spins.trans h.idle, ?_⟩
  exact fact.stable s s' h.proc (fun mem => h.holds.least _ mem (by simp)) rely h.fact

/-- What a local action keeps. -/
theorem At.of_local {H' : List Mutex} (fact : Fact t p H F) (h : At t p H F s) (same : Local t s s')
    (holds : Holds t H' s') (idle : s'.spins t = none) : At t p H' F s' :=
  ⟨by rw [same.proc, h.proc], holds, idle, fact.same s s' same.toSameTree h.fact⟩

/-- The piece gives back the mutexes that it takes. -/
def Keeps (order tidy : Prop) (t p : Nat) (H : List Mutex) (F : State → Prop) (code : Code α) : Prop :=
  Meets order tidy t (At t p H F) code fun _ => At t p H F

/-! ### Rules for the actions -/

section
variable {Q : α → State → Prop}

/-- An action that changes nothing but the oracle. -/
theorem meets_read {a : Act} {Q : Answer a → State → Prop} (fact : Fact t p H F)
    (reads : ∀ s, (exec t a s).1 = s ∨ (exec t a s).1 = s.shift)
    (post : ∀ s, Inv order tidy s → s.live t = true → Admits order tidy t a s → At t p H F s →
      At t p H F (exec t a s).1 → Q (exec t a s).2 (exec t a s).1) :
    Meets order tidy t (At t p H F) (act a) Q := by
  refine Meets.act (at_stable fact) fun s inv live ok h => ⟨(exec t a s).1, (exec t a s).2, ?_⟩
  have here : Local t s (exec t a s).1 ∧ (exec t a s).1.spins = s.spins ∧
      (exec t a s).1.owner = s.owner := by
    rcases reads s with same | same <;> rw [same]
    · exact ⟨local_refl t s, rfl, rfl⟩
    · exact ⟨local_shift t s, rfl, rfl⟩
  obtain ⟨same, spins, owner⟩ := here
  have idle : (exec t a s).1.spins t = none := by rw [spins, h.idle]
  have after : At t p H F (exec t a s).1 := by
    refine h.of_local fact same ⟨?_, ?_⟩ idle <;> rw [owner]
    · exact h.holds.most
    · exact h.holds.least
  refine does_local inv live rfl same (fun _ m spins => ?_) (post s inv live ok h after)
  rw [idle] at spins
  exact absurd spins (by simp)

theorem keeps_ask (fact : Fact t p H F) : Keeps order tidy t p H F ask :=
  meets_read fact (fun _ => .inr rfl) fun _ _ _ _ _ h => h

theorem keeps_test (fact : Fact t p H F) : Keeps order tidy t p H F test :=
  (keeps_ask fact).bind fun _ => Meets.pure fun _ _ h => h

theorem meets_self {next : Nat → Code α} (fact : Fact t p H F)
    (then_ : p ≠ root → Meets order tidy t (At t p H F) (next p) Q) :
    Meets order tidy t (At t p H F) (self >>= next) Q := by
  have first : Meets order tidy t (At t p H F) self fun x s => (x = p ∧ p ≠ root) ∧ At t p H F s :=
    meets_read fact (fun _ => .inl rfl) fun s _ live _ h _ =>
      ⟨⟨h.proc, h.proc ▸ (live_iff.mp live).2⟩, h⟩
  exact first.bind fun x => Meets.known fun h => h.1 ▸ then_ h.2

theorem meets_access (fact : Fact t p H F) : Meets order tidy t (At t p H F) access
    fun faults s => (order → faults = true → pcb p ∉ H) ∧ At t p H F s := by
  refine meets_read fact (fun _ => .inr rfl) fun s _ _ ok h after => ⟨fun ord faults mem => ?_, after⟩
  have faults : s.oracle 0 ≠ 0 := of_decide_eq_true faults
  refine ok.order ord faults ?_
  rw [h.proc]
  exact h.holds.least _ mem (by simp)

/-- A fault is given to a user handler. -/
theorem meets_deliver (fact : Fact t p H F) (mode : order ∨ tidy) :
    Meets order tidy t (At t p H F) deliver fun _ => At t p H F := by
  have first : Meets order tidy t (At t p H F) (act .deliver) fun _ => Ready t :=
    meets_read fact (fun _ => .inl rfl) fun s _ _ ok h _ =>
      ⟨holds_nil.mpr (mode.elim ok.order ok.tidy), h.idle⟩
  exact first.bind fun _ => Meets.failure fun _ _ h => h

/-- A fault kills the thread: in the tidy system it holds nothing. -/
theorem meets_fatal {next : Unit → Code α} (fact : ∀ H', Fact t p H' F)
    (then_ : ∀ H', (∀ m ∈ H', m ∈ H) → (tidy → H' = []) →
      Meets order tidy t (At t p H' F) (next ()) Q) :
    Meets order tidy t (At t p H F) (fatal >>= next) Q := by
  by_cases tid : tidy
  · have first : Meets order tidy t (At t p H F) fatal fun _ => At t p [] F :=
      meets_read (fact H) (fun _ => .inl rfl) fun s _ _ ok h _ =>
        ⟨h.proc, holds_nil.mpr (ok.tidy tid), h.idle, h.fact⟩
    exact first.bind fun _ => then_ [] (by simp) fun _ => rfl
  · have first : Meets order tidy t (At t p H F) fatal fun _ => At t p H F :=
      meets_read (fact H) (fun _ => .inl rfl) fun _ _ _ _ h _ => h
    exact first.bind fun _ => then_ H (fun _ => id) fun h => absurd h tid

theorem meets_aliveCount (fact : Fact t p H F) (q : Nat) : Meets order tidy t (At t p H F) (aliveCount q)
    fun n s => At t p H (fun s => F s ∧ (n = 0 → s.Exited q) ∧ (q = p → n = 1 → s.Alone t)) s := by
  refine meets_read fact (fun _ => .inl rfl) fun s inv live _ h _ =>
    ⟨h.proc, h.holds, h.idle, h.fact, exited_of_aliveCount inv.toBase, fun same one => ?_⟩
  have one : s.aliveCount (s.proc t) = 1 := by
    rw [h.proc, ← same]
    exact one
  exact alone_of_aliveCount inv.toBase (live_iff.mp live).1 one

theorem meets_childPcbList (fact : Fact t p H F) (q : Nat) :
    Meets order tidy t (At t p H F) (childPcbList q) fun l s =>
      At t p H (fun s => F s ∧ s.children q = l) s :=
  meets_read fact (fun _ => .inl rfl) fun _ _ _ _ h _ => ⟨h.proc, h.holds, h.idle, h.fact, rfl⟩

theorem meets_never (fact : Fact t p H F) : Meets order tidy t (At t p H F) (never : Code α) Q := by
  have first : Meets order tidy t (At t p H F) (act .never) fun _ => Ready t :=
    meets_read fact (fun _ => .inl rfl) fun s _ _ ok _ _ => absurd ok.proceeds (by simp [State.proceeds])
  exact first.bind fun _ => Meets.failure fun _ _ h => h

/-! ### Mutexes -/

/-- The thread is in `mutex_lock`. -/
structure Calls (t p : Nat) (H : List Mutex) (F : State → Prop) (m : Mutex) (s : State) : Prop where
  proc : s.proc t = p
  holds : Holds t H s
  spins : s.spins t = some m
  fact : F s

theorem Ordered.call {m' : Mutex} (h : Ordered s t m) : Ordered (s.call t m') t m := by
  cases h with
  | plain waited own below => exact .plain waited own below
  | scan child held below => exact .scan child held below
  | handOver other below => exact .handOver other below

theorem KeepsOrder.call (h : KeepsOrder t (.call m) s) : KeepsOrder t (.call m) (s.call t m) := by
  have spins : ∀ u, u ≠ t → (s.call t m).spins u = s.spins u := fun u ne =>
    Function.update_of_ne ne _ _
  refine ⟨fun proc c ne same u alive other => ?_, fun other same u alive proc c ne => ?_⟩
  · have apart : u ≠ t := by
      rintro rfl
      exact other proc
    rw [spins u apart]
    exact h.1 proc c ne same u alive other
  · have apart : u ≠ t := by
      rintro rfl
      exact other proc
    rw [spins u apart]
    exact h.2 other same u alive proc c ne

/-- The rule for `mutex_lock`: the mutex is asked for in its order, and is not held yet. -/
theorem meets_lock {next : Unit → Code α} (fact : Fact t p H F) (waited : m ≠ inputLock)
    (ord : order → ∀ s, Inv order tidy s → At t p H F s → Ordered s t m)
    (then_ : m ∉ H → Meets order tidy t (At t p (m :: H) F) (next ()) Q) :
    Meets order tidy t (At t p H F) (mutexLock m >>= next) Q := by
  have calls : Meets order tidy t (At t p H F) (act (.call m)) fun _ => Calls t p H F m := by
    refine Meets.act (at_stable fact) fun s inv live ok h => ⟨s.call t m, (), ?_⟩
    have same := local_call t s m
    have waits : (s.call t m).spins t = some m := Function.update_self _ _ _
    refine does_local inv live rfl same (fun on m' spins => ?_)
      ⟨h.proc, ⟨h.holds.most, h.holds.least⟩, waits, fact.same _ _ same.toSameTree h.fact⟩
    obtain rfl : m = m' := Option.some.inj (waits.symm.trans spins)
    exact ⟨(ord on s inv h).call, (ok.order on).call⟩
  have stable : (system order tidy).Stable t (Calls t p H F m) := by
    intro s s' h rely
    have rely : Rely t s s' := rely
    refine ⟨rely.proc.trans h.proc, h.holds.of_rely rely, rely.spins.trans h.spins, ?_⟩
    exact fact.stable s s' h.proc (fun mem => h.holds.least _ mem (by simp)) rely h.fact
  have takes : Meets order tidy t (Calls t p H F m) (act (.take m))
      fun _ s => m ∉ H ∧ At t p (m :: H) F s := by
    refine Meets.act stable fun s inv live ok h => ⟨s.take t m, (), ?_⟩
    have free : s.owner m = none := of_decide_eq_true ok.proceeds
    have same : Local t s (s.take t m) := local_take free
    have idle : (s.take t m).spins t = none := Function.update_self _ _ _
    have new : m ∉ H := fun mem => by
      have own := h.holds.least m mem waited
      rw [free] at own
      exact absurd own (by simp)
    refine does_local inv live rfl same (fun _ m' spins => ?_) ⟨new, ?_⟩
    · rw [idle] at spins
      exact absurd spins (by simp)
    · refine ⟨h.proc, ⟨fun m' own => ?_, fun m' mem ne => ?_⟩, idle,
        fact.same _ _ same.toSameTree h.fact⟩
      · by_cases same : m' = m
        · exact same ▸ List.mem_cons_self
        · have own : s.owner m' = some t := (Function.update_of_ne same _ _).symm.trans own
          exact List.mem_cons_of_mem m (h.holds.most m' own)
      · by_cases same : m' = m
        · subst same
          exact Function.update_self _ _ _
        · refine (Function.update_of_ne same _ _).trans (h.holds.least m' ?_ ne)
          exact (List.mem_cons.mp mem).resolve_left same
  exact (calls.bind fun _ => takes).bind fun _ => Meets.known then_

/-- The rule away from scans and hand-overs. -/
theorem meets_lock_plain {next : Unit → Code α} (fact : Fact t p H F) (waited : m ≠ inputLock)
    (own : ∀ q, m = pcb q → q = p) (below : order → ∀ m' ∈ H, m' ∈ allowed p m)
    (then_ : m ∉ H → Meets order tidy t (At t p (m :: H) F) (next ()) Q) :
    Meets order tidy t (At t p H F) (mutexLock m >>= next) Q := by
  refine meets_lock fact waited (fun on s _ h => .plain waited ?_ ?_) then_ <;> rw [h.proc]
  · exact own
  · exact fun m' own => below on m' (h.holds.most m' own)

theorem meets_unlock (fact : Fact t p (m :: H) F) (new : m ∉ H) :
    Meets order tidy t (At t p (m :: H) F) (mutexUnlock m) fun _ => At t p H F := by
  refine Meets.act (at_stable fact) fun s inv live _ h => ⟨s.unlock m, (), ?_⟩
  have same : Local t s (s.unlock m) := local_unlock (h.holds.least m List.mem_cons_self)
  have idle : (s.unlock m).spins t = none := h.idle
  refine does_local inv live rfl same (fun _ m' spins => ?_) (h.of_local fact same ?_ idle)
  · rw [idle] at spins
    exact absurd spins (by simp)
  · refine ⟨fun m' own => ?_, fun m' mem ne => ?_⟩
    · by_cases same : m' = m
      · subst same
        have gone : (s.unlock m').owner m' = none := Function.update_self _ _ _
        rw [gone] at own
        exact absurd own (by simp)
      · have own : s.owner m' = some t := (Function.update_of_ne same _ _).symm.trans own
        exact (List.mem_cons.mp (h.holds.most m' own)).resolve_left same
    · have apart : m' ≠ m := fun same => new (same ▸ mem)
      exact (Function.update_of_ne apart _ _).trans
        (h.holds.least m' (List.mem_cons_of_mem m mem) ne)

/-- The result of `mutex_try_lock` on `inputLock` is not needed. -/
theorem meets_tryLock (fact : Fact t p H F) : Meets order tidy t (At t p H F) (mutexTryLock inputLock)
    fun _ => At t p (inputLock :: H) F := by
  refine Meets.act (at_stable fact) fun s inv live _ h => ?_
  by_cases free : s.owner inputLock = none
  · refine ⟨s.hold t inputLock, true, ?_⟩
    have same : Local t s (s.hold t inputLock) := local_hold free
    have idle : (s.hold t inputLock).spins t = none := h.idle
    refine does_local inv live (if_pos free) same (fun _ m' spins => ?_)
      (h.of_local fact same ?_ idle)
    · rw [idle] at spins
      exact absurd spins (by simp)
    · refine ⟨fun m' own => ?_, fun m' mem ne => ?_⟩
      · by_cases same : m' = inputLock
        · exact same ▸ List.mem_cons_self
        · have own : s.owner m' = some t := (Function.update_of_ne same _ _).symm.trans own
          exact List.mem_cons_of_mem _ (h.holds.most m' own)
      · refine (Function.update_of_ne ne _ _).trans (h.holds.least m' ?_ ne)
        exact (List.mem_cons.mp mem).resolve_left ne
  · refine ⟨s, false, ?_⟩
    refine does_local inv live (if_neg free) (local_refl t s) (fun _ m' spins => ?_)
      ⟨h.proc, ⟨fun m' own => List.mem_cons_of_mem _ (h.holds.most m' own), fun m' mem ne => ?_⟩,
        h.idle, h.fact⟩
    · rw [h.idle] at spins
      exact absurd spins (by simp)
    · exact h.holds.least m' ((List.mem_cons.mp mem).resolve_left ne) ne

end

/-! ### Edits of the process tree -/

/-- An edit that leaves the mutexes alone. -/
structure Edits (t : Nat) (s s' : State) : Prop where
  base : Base s'
  owner : s'.owner = s.owner
  spins : s'.spins = s.spins
  proc : s'.proc t = s.proc t
  rely : ∀ u, u ≠ t → s.live u = true → Rely u s s'
  start : ∀ u, s'.live u = true → s.live u = false → Ready u s'

/-- An edit that neither starts nor ends a thread. -/
theorem edits_of {s' : State} (base : Base s') (owner : s'.owner = s.owner) (spins : s'.spins = s.spins)
    (proc : s'.proc = s.proc) (alive : s'.alive = s.alive)
    (rely : ∀ u, u ≠ t → s.live u = true → Rely u s s') : Edits t s s' := by
  refine ⟨base, owner, spins, by rw [proc], rely, fun u now was => ?_⟩
  rw [State.live, alive, proc] at now
  rw [State.live, now] at was
  exact absurd was (by simp)

theorem meets_edit {a : Act} {Q : Answer a → State → Prop} (fact : Fact t p H F)
    (edits : ∀ s, Inv order tidy s → s.live t = true → Admits order tidy t a s → At t p H F s →
      Edits t s (exec t a s).1 ∧
      (tidy → ∀ m u, s.owner m = some u → s.alive u = true → (exec t a s).1.alive u = true) ∧
      ((exec t a s).1.live t = true → Q (exec t a s).2 (exec t a s).1)) :
    Meets order tidy t (At t p H F) (act a) Q := by
  refine Meets.act (at_stable fact) fun s inv live ok h => ⟨(exec t a s).1, (exec t a s).2, ?_⟩
  obtain ⟨edit, held, post⟩ := edits s inv live ok h
  refine does_of inv rfl edit.base (guarantees_of edit.rely edit.start) (fun _ m _ spins => ?_)
    (fun tid m u own => ?_) post
  · rw [edit.spins, h.idle] at spins
    exact absurd spins (by simp)
  · rw [edit.owner] at own
    exact held tid m u own (inv.held tid m u own)

theorem At.edit {F' : State → Prop} (h : At t p H F s) (edit : Edits t s s') (fact : F' s') :
    At t p H F' s' := by
  refine ⟨edit.proc.trans h.proc, ⟨?_, ?_⟩, edit.spins.symm ▸ h.idle, fact⟩ <;> rw [edit.owner]
  · exact h.holds.most
  · exact h.holds.least

/-- The only thread of its process, with a child that has no thread yet. -/
def Child (t p c : Nat) (s : State) : Prop := s.Alone t ∧ c ∈ s.children p ∧ s.Exited c

theorem fact_alone : Fact t p H (·.Alone t) :=
  ⟨fun _ _ same => same.alone.mpr, fun _ _ _ _ rely => rely.alone⟩

theorem fact_alone_if (n : Nat) : Fact t p H fun s => n = 1 → s.Alone t :=
  ⟨fun _ _ same h one => same.alone.mpr (h one), fun _ _ _ _ rely h one => rely.alone (h one)⟩

theorem fact_child : Fact t p H (Child t p c) := by
  refine ⟨fun s s' same h => ?_, fun s s' proc _ rely h => ?_⟩ <;> obtain ⟨alone, mem, exited⟩ := h
  · refine ⟨same.alone.mpr alone, ?_, same.exited.mpr exited⟩
    rwa [same.children]
  · rw [← proc] at mem
    refine ⟨rely.alone alone, ?_, rely.exited (.inr alone) c mem exited⟩
    rw [← proc]
    exact rely.grows alone mem

theorem meets_pushBack : Meets order tidy t (At t p [] (·.Alone t)) (pushBack p)
    fun c => At t p [] (Child t p c) := by
  refine meets_edit fact_alone fun s inv live _ h => ?_
  have alive := (live_iff.mp live).1
  have bound : p < s.procCount := h.proc ▸ (inv.threads t alive).2.1
  have edit : Edits t s (s.pushBack p) := edits_of (base_pushBack inv.toBase bound) rfl rfl rfl rfl
    fun u ne => rely_pushBack inv.toBase h.proc alive h.fact ne
  refine ⟨edit, fun _ _ _ _ => id, fun _ => h.edit edit ⟨h.fact, ?_, fun u aliveU same => ?_⟩⟩
  · change s.procCount ∈ (s.pushBack p).children p
    rw [pushBack_children (Nat.ne_of_lt bound), if_neg (Nat.ne_of_lt bound), if_pos rfl]
    exact List.mem_append_right _ (List.mem_singleton_self _)
  · exact Nat.ne_of_lt (inv.threads u aliveU).2.1 same

theorem meets_popBack : Meets order tidy t (At t p [] (·.Alone t)) (popBack p)
    fun _ => At t p [] (·.Alone t) := by
  refine meets_edit fact_alone fun s inv live _ h => ?_
  have edit : Edits t s (s.popBack p) := edits_of (base_popBack inv.toBase) rfl rfl rfl rfl
    fun u ne => rely_popBack h.proc h.fact ne
  exact ⟨edit, fun _ _ _ _ => id, fun _ => h.edit edit h.fact⟩

theorem meets_ready {q : Nat} (fact : Fact t p H F)
    (may : ∀ s, s.proc t = p → F s → s.MayStart t q) :
    Meets order tidy t (At t p H F) (ready q) fun _ => At t p H fun _ => True := by
  refine meets_edit fact fun s inv live _ h => ?_
  have alive := (live_iff.mp live).1
  have starts := may s h.proc h.fact
  have old := Nat.ne_of_lt (inv.threads t alive).1
  have edit : Edits t s (s.ready q) := ⟨base_ready inv.toBase alive starts, rfl, rfl, proc_ready old,
    fun u ne => rely_ready inv.toBase alive starts ne, fun u => ready_ready inv.toBase⟩
  refine ⟨edit, fun _ m u own alive => ?_, fun _ => h.edit edit trivial⟩
  exact (alive_ready_of_ne (Nat.ne_of_lt (inv.owners m u own))).trans alive

theorem fact_gone : Fact t p H fun s => s.gone c = true := by
  refine ⟨fun s s' same gone => ?_, fun s s' _ _ rely gone => rely.gone c gone⟩
  rwa [same.gone]

/-- Under the lock of its PCB, a thread knows the list of its children. -/
theorem fact_children {l : List Nat} (mem : pcb p ∈ H) : Fact t p H fun s => s.children p = l := by
  refine ⟨fun s s' same list => ?_, fun s s' proc own rely list => ?_⟩
  · rwa [same.children]
  · have own := own mem
    rw [← proc] at own list ⊢
    rw [rely.children own, list]

theorem fact_exited (mem : pcb p ∈ H) : Fact t p H fun s => c ∈ s.children p ∧ s.Exited c := by
  refine ⟨fun s s' same h => ?_, fun s s' proc own rely h => ?_⟩ <;> obtain ⟨child, exited⟩ := h
  · refine ⟨?_, same.exited.mpr exited⟩
    rwa [same.children]
  · have own := own mem
    rw [← proc] at own child ⊢
    exact ⟨by rwa [rely.children own], rely.exited (.inl own) c child exited⟩

theorem meets_detach (mem : pcb p ∈ H) :
    Meets order tidy t (At t p H fun s => c ∈ s.children p ∧ s.Exited c) (detach p c)
      fun _ s => p < c ∧ At t p H (fun s => s.gone c = true) s := by
  refine meets_edit (fact_exited mem) fun s inv live _ h => ?_
  obtain ⟨child, exited⟩ := h.fact
  have own := h.holds.least _ mem (by simp)
  have edit : Edits t s (s.detach p c) := edits_of (base_detach inv.toBase child exited) rfl rfl rfl
    rfl fun u ne _ => rely_detach own h.proc (live_iff.mp live).1 ne
  exact ⟨edit, fun _ _ _ _ => id, fun _ =>
    ⟨(inv.lists p c child).1, h.edit edit (Function.update_self _ _ _)⟩⟩

theorem meets_splice (mem : pcb p ∈ H) (memInit : pcb init ∈ H) (lt : p < c) (low : init < c) :
    Keeps order tidy t p H (fun s => s.gone c = true) (splice p c) := by
  refine meets_edit fact_gone fun s inv live _ h => ?_
  have own := h.holds.least _ mem (by simp)
  have ownInit := h.holds.least _ memInit (by simp)
  have edit : Edits t s (s.splice p c) := edits_of (base_splice inv.toBase lt low) rfl rfl rfl rfl
    fun u ne => rely_splice inv.toBase own h.proc (live_iff.mp live).1 ownInit h.fact ne
  exact ⟨edit, fun _ _ _ _ => id, fun _ => h.edit edit h.fact⟩

/-- The same, with the whole list known. -/
theorem fact_scan {l : List Nat} (own : pcb p ∈ H) (mem : c ∈ l) :
    Fact t p H fun s => s.children p = l ∧ s.Exited c := by
  have both : Fact t p H fun s => s.children p = l ∧ c ∈ s.children p ∧ s.Exited c :=
    (fact_children own).and (fact_exited own)
  refine ⟨fun s s' same h => ?_, fun s s' proc held rely h => ?_⟩
  · have after := both.same s s' same ⟨h.1, by rwa [h.1], h.2⟩
    exact ⟨after.1, after.2.2⟩
  · have after := both.stable s s' proc held rely ⟨h.1, by rwa [h.1], h.2⟩
    exact ⟨after.1, after.2.2⟩

/-- Threads that end leave the tree alone. -/
theorem edits_alive {f : Nat → Bool} (base : Base s) (fewer : ∀ v, f v = true → s.alive v = true) :
    Edits t s { s with alive := f } := by
  refine ⟨base_alive base fewer, rfl, rfl, rfl, fun u _ _ => rely_alive fewer, fun u now was => ?_⟩
  obtain ⟨alive, other⟩ := live_iff.mp now
  exact absurd (not_live_iff.mp was (fewer u alive)) other

theorem meets_terminateSiblings : Keeps order tidy t p H (fun _ => True) terminateSiblings := by
  refine meets_edit fact_true fun s inv live ok h => ?_
  have edit : Edits t s (s.terminateSiblings t) := edits_alive inv.toBase fewer_terminateSiblings
  refine ⟨edit, fun tid m u own alive => ?_, fun _ => h.edit edit trivial⟩
  change (s.alive u && (decide (u = t) || decide (s.proc u ≠ s.proc t))) = true
  by_cases self : u = t
  · subst self
    simp [alive]
  · have other : s.proc u ≠ s.proc t := fun same => ok.tidy tid u alive same self m own
    simp [alive, other]

/-- After its last step a thread meets anything. -/
theorem meets_terminate {Q : Unit → State → Prop} (fact : Fact t p H F) (none : tidy → H = []) :
    Meets order tidy t (At t p H F) terminate Q := by
  refine meets_edit fact fun s inv live _ h => ?_
  refine ⟨edits_alive inv.toBase fewer_terminate, fun tid m u own alive => ?_, fun now => ?_⟩
  · have apart : u ≠ t := by
      rintro rfl
      have mem := h.holds.most m own
      rw [none tid] at mem
      exact absurd mem List.not_mem_nil
    exact (Function.update_of_ne apart _ _).trans alive
  · have ended : (s.terminate t).alive t = false := Function.update_self _ _ _
    have alive : (s.terminate t).alive t = true := (live_iff.mp now).1
    rw [ended] at alive
    exact absurd alive (by simp)

end OsKernel.Locks
