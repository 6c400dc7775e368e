/-
Every exited process is returned once, to its parent.

`Books` ties the bookkeeping to the lists: how many children a process ever had is
how many it has plus how many were returned to it, and a process is returned once,
when it leaves its list. `Statuses` ties the status in a PCB to what the process
gave in its calls. With `Rep` this gives what a call of `wait` does in any state
that calls reach.
-/

import OsKernel.Process.Forest

namespace OsKernel.Process

namespace Tree

/-- How often `wait` succeeded for the process with serial `n`. -/
def waits (s : Tree) (n : Nat) : Nat := s.returned.countP (·.1 = n)

/-- How often the process with serial `n` was returned. -/
def returns (s : Tree) (n : Nat) : Nat := s.returned.countP (·.2 = n)

end Tree

structure Books (s : Tree) (kids : Nat → List Nat) : Prop where
  first : ∀ q, s.live q → ∃ alive rest, s.tcbs q = ⟨s.pid q, alive⟩ :: rest
  had : ∀ q, s.live q → s.had (s.serial q) = s.waits (s.serial q) + (kids q).length
  once : ∀ n < s.created, ((∃ q, s.live q ∧ s.serial q = n) ∧ s.returns n = 0) ∨
    ((∀ q, s.live q → s.serial q ≠ n) ∧ s.returns n = 1)
  fresh : ∀ n, s.created ≤ n → s.had n = 0 ∧ s.waits n = 0 ∧ s.returns n = 0

/-- The lists are represented and the books are right. -/
def Inv (s : Tree) : Prop := ∃ kids init, Rep s kids init ∧ Books s kids

/-- A PCB holds the status that its process gave last, which is also the one the
process exited with, once it has. -/
structure Statuses (s : Tree) : Prop where
  given : ∀ q, s.live q → s.status q = s.declared (s.serial q)
  exited : ∀ q, s.live q → s.threadAliveCount q = 0 →
    s.exitStatus (s.serial q) = some (s.status q)
  fresh : ∀ n, s.created ≤ n → s.declared n = 0

variable {s : Tree} {kids : Nat → List Nat} {init p c : Nat}

/-! ### Calls that leave the lists alone -/

theorem Rep.of_threads (h : Rep s kids init) (tcbs : Nat → List Tcb) (count : Nat)
    (status : Nat → Int) :
    Rep { s with tcbs := tcbs, threadCount := count, status := status } kids init where
  ring := h.ring
  head := h.head
  apart := h.apart
  kid := h.kid
  owned := h.owned
  root := h.root
  orphan := h.orphan
  first := h.first
  serial_root := h.serial_root
  serial_init := h.serial_init
  serial_lt := h.serial_lt
  serial_inj := h.serial_inj
  older := h.older

/-- A process keeps its first thread. -/
theorem Books.of_threads (b : Books s kids) (count : Nat) (status : Nat → Int) {l : List Tcb}
    (keeps : ∀ tcb rest, s.tcbs p = tcb :: rest → ∃ alive rest', l = ⟨tcb.tid, alive⟩ :: rest') :
    Books { s with tcbs := Function.update s.tcbs p l, threadCount := count, status := status }
      kids where
  first q hq := by
    obtain ⟨alive, rest, eq⟩ := b.first q hq
    by_cases same : q = p
    · subst same
      obtain ⟨alive', rest', eq'⟩ := keeps _ rest eq
      exact ⟨alive', rest', by simp [eq']⟩
    · exact ⟨alive, rest, by simp [same, eq]⟩
  had := b.had
  once := b.once
  fresh := b.fresh

theorem Inv.threadFork (inv : Inv s) : Inv (s.threadFork p) := by
  obtain ⟨kids, init, h, b⟩ := inv
  refine ⟨kids, init, h.of_threads _ _ _, b.of_threads _ _ fun tcb rest eq => ?_⟩
  exact ⟨tcb.alive, rest ++ [⟨s.threadCount, true⟩], by rw [eq]; rfl⟩

theorem Inv.vanish (inv : Inv s) (k : Nat) : Inv (s.vanish p k) := by
  obtain ⟨kids, init, h, b⟩ := inv
  refine ⟨kids, init, h.of_threads _ _ _, b.of_threads _ _ fun tcb rest eq => ?_⟩
  rw [eq]
  cases k with
  | zero => exact ⟨false, rest, rfl⟩
  | succ k => exact ⟨tcb.alive, rest.modify k _, rfl⟩

theorem Inv.setStatus (inv : Inv s) (status : Int) : Inv (s.setStatus p status) := by
  obtain ⟨kids, init, h, b⟩ := inv
  exact ⟨kids, init, h.of_threads _ _ _, ⟨b.first, b.had, b.once, b.fresh⟩⟩

theorem Inv.taskVanish (inv : Inv s) (k : Nat) (status : Int) : Inv (s.taskVanish p k status) := by
  refine Inv.vanish (Inv.setStatus ?_ status) k
  obtain ⟨kids, init, h, b⟩ := inv
  refine ⟨kids, init, h.of_threads _ _ _, b.of_threads _ _ fun tcb rest eq => ?_⟩
  rw [eq, List.mapIdx_cons]
  split
  · exact ⟨false, _, rfl⟩
  · exact ⟨tcb.alive, _, rfl⟩

/-! ### Fork -/

/-- The new process starts with empty books. -/
theorem Books.forked (b : Books s kids) (h : Rep s kids init) (live : s.live p) {addr : Nat}
    (free : s.live addr = false) {s' : Tree}
    (live_eq : s'.live = Function.update s.live addr true)
    (tcbs_eq : ∀ q, q ≠ addr → s'.tcbs q = s.tcbs q) (pid_eq : ∀ q, q ≠ addr → s'.pid q = s.pid q)
    (thread : s'.tcbs addr = [⟨s'.pid addr, true⟩])
    (created_eq : s'.created = s.created + 1)
    (serial_eq : s'.serial = Function.update s.serial addr s.created)
    (had_eq : s'.had = Function.update s.had (s.serial p) (s.had (s.serial p) + 1))
    (returned_eq : s'.returned = s.returned) : Books s' (forkedKids kids p addr) := by
  have dead : ∀ {q}, s.live q → q ≠ addr := by
    rintro q hq rfl
    rw [free] at hq
    cases hq
  have was : ∀ {q}, s'.live q → q ≠ addr → s.live q := by
    intro q hq hne
    rwa [live_eq, Function.update_of_ne hne] at hq
  have still : ∀ {q}, s.live q → s'.live q := by
    intro q hq
    rw [live_eq, Function.update_of_ne (dead hq)]
    exact hq
  have serial : ∀ {x}, x ≠ addr → s'.serial x = s.serial x := fun hx => by
    rw [serial_eq, Function.update_of_ne hx]
  have newSerial : s'.serial addr = s.created := by rw [serial_eq, Function.update_self]
  have waits : ∀ n, s'.waits n = s.waits n := fun n => by rw [Tree.waits, returned_eq]; rfl
  have returns : ∀ n, s'.returns n = s.returns n := fun n => by rw [Tree.returns, returned_eq]; rfl
  have serialP := h.serial_lt p live
  refine ⟨fun q hq => ?_, fun q hq => ?_, fun n hn => ?_, fun n hn => ?_⟩
  · by_cases isNew : q = addr
    · exact ⟨true, [], isNew ▸ thread⟩
    · obtain ⟨alive, rest, eq⟩ := b.first q (was hq isNew)
      exact ⟨alive, rest, by rw [tcbs_eq q isNew, pid_eq q isNew, eq]⟩
  · rw [waits, had_eq]
    by_cases isNew : q = addr
    · rw [isNew, newSerial, Function.update_of_ne (by omega), forkedKids, Function.update_self]
      obtain ⟨had, none, -⟩ := b.fresh s.created (Nat.le_refl _)
      rw [had, none]
      rfl
    · have hq := was hq isNew
      have old := b.had q hq
      rw [serial isNew, forkedKids, Function.update_of_ne isNew]
      by_cases same : q = p
      · subst same
        rw [Function.update_self, Function.update_self, List.length_append, old]
        rfl
      · rw [Function.update_of_ne fun eq => same (h.serial_inj q p hq live eq),
          Function.update_of_ne same, old]
  · rw [returns]
    rw [created_eq] at hn
    by_cases isNew : n = s.created
    · obtain ⟨-, -, none⟩ := b.fresh n (by omega)
      exact .inl ⟨⟨addr, by rw [live_eq, Function.update_self], newSerial.trans isNew.symm⟩, none⟩
    · rcases b.once n (by omega) with ⟨⟨q, hq, eq⟩, none⟩ | ⟨gone, one⟩
      · exact .inl ⟨⟨q, still hq, (serial (dead hq)).trans eq⟩, none⟩
      · refine .inr ⟨fun q hq => ?_, one⟩
        by_cases new : q = addr
        · rw [new, newSerial]
          exact Ne.symm isNew
        · rw [serial new]
          exact gone q (was hq new)
  · rw [created_eq] at hn
    rw [waits, returns, had_eq, Function.update_of_ne (by omega)]
    exact b.fresh n (by omega)

theorem Inv.fork (inv : Inv s) (live : s.live p) (ne : p ≠ s.root) (addr : Option Nat)
    (allocated : Bool) : Inv (s.fork p addr allocated) := by
  unfold Tree.fork
  split
  swap
  · exact inv
  cases addr with
  | none => exact inv
  | some addr =>
  dsimp only
  split
  · exact inv
  rename_i free
  rw [Bool.not_eq_true] at free
  obtain ⟨kids, init, h, b⟩ := inv
  have dead : ∀ {q}, s.live q → q ≠ addr := by
    rintro q hq rfl
    rw [free] at hq
    cases hq
  cases allocated with
  | false =>
      rw [if_neg Bool.false_ne_true]
      refine ⟨kids, init, h.unforked live free, ?_⟩
      obtain ⟨front, -, -, popped⟩ := popChild_pushChild h live free
      rw [popped]
      refine ⟨fun q hq => ?_, b.had, b.once, b.fresh⟩
      obtain ⟨alive, rest, eq⟩ := b.first q hq
      exact ⟨alive, rest, by simp [Tree.pushChild, dead hq, eq]⟩
  | true =>
      rw [if_pos rfl]
      have lists := Lists.pushChild h live free
      refine ⟨forkedKids kids p addr, init, h.forked live ne free
        ⟨lists.ring, lists.head, lists.apart⟩ rfl rfl rfl rfl rfl, ?_⟩
      refine b.forked h live free rfl (fun q hq => ?_) (fun q hq => ?_) ?_ rfl rfl rfl rfl
      · simp [Tree.pushChild, hq]
      · simp [Tree.pushChild, hq]
      · simp

/-! ### Wait -/

theorem Books.reap (b : Books s kids) (h : Rep s kids init) (k : Child s kids init p c) :
    Books (s.reap p c init) (reapedKids kids init c) := by
  have cLive := k.live h
  have moved := h.childrenOf_eq cLive
  rw [reap_frame, moved]
  generalize (s.reap p c init).links = links
  generalize (s.reap p c init).children = children
  generalize (s.reap p c init).parent = parent
  have alive : ∀ {q}, Function.update s.live c false q = true → s.live q = true ∧ q ≠ c := by
    intro q hq
    by_cases same : q = c
    · rw [same, Function.update_self] at hq
      cases hq
    · rw [Function.update_of_ne same] at hq
      exact ⟨hq, same⟩
  refine ⟨fun q hq => b.first q (alive hq).1, fun q hq => ?_, fun n hn => ?_, fun n hn => ?_⟩
  · obtain ⟨hq, qc⟩ := alive hq
    have old := b.had q hq
    have others : q ≠ p → (kids q).erase c = kids q := fun ne =>
      List.erase_of_not_mem (h.not_mem_of_ne k.caller hq (Ne.symm ne) k.mem)
    have caller : ((kids p).erase c).length + 1 = (kids p).length := by
      have := List.length_erase_of_mem k.mem
      have := List.length_pos_of_mem k.mem
      omega
    have waits : s.returned.countP (·.1 = s.serial q) + [(s.serial p, s.serial c)].countP
        (·.1 = s.serial q) = s.waits (s.serial q) + if q = p then 1 else 0 := by
      rw [Tree.waits, List.countP_singleton]
      congr 1
      refine if_congr ?_ rfl rfl
      simp only [decide_eq_true_eq]
      exact ⟨fun eq => (h.serial_inj p q k.caller hq eq).symm, fun eq => by rw [eq]⟩
    change Function.update s.had _ _ (s.serial q) = List.countP _ (s.returned ++ _) + _
    rw [List.countP_append, waits, reapedKids, List.length_append]
    have had : Function.update s.had (s.serial init) (s.had (s.serial init) + (kids c).length)
        (s.serial q) = s.had (s.serial q) + if q = init then (kids c).length else 0 := by
      by_cases same : q = init
      · rw [same, Function.update_self, if_pos rfl]
      · rw [if_neg same, Function.update_of_ne]
        · rfl
        · exact fun eq => same (h.serial_inj q init hq h.init_live.1 eq)
    rw [had, old]
    by_cases same : q = p
    · subst same
      by_cases isInit : q = init
      · simp only [isInit, ↓reduceIte] at *
        omega
      · simp only [isInit, ↓reduceIte, List.length_nil] at *
        omega
    · rw [others same, if_neg same]
      by_cases isInit : q = init
      · simp only [isInit, ↓reduceIte] at *
        omega
      · simp only [isInit, ↓reduceIte, List.length_nil] at *
        omega
  · have count : ∀ n, (s.returned ++ [(s.serial p, s.serial c)]).countP (·.2 = n) =
        s.returns n + if s.serial c = n then 1 else 0 := by
      intro n
      rw [List.countP_append, List.countP_singleton, Tree.returns]
      simp
    by_cases this : s.serial c = n
    · right
      have none : s.returns n = 0 := by
        rcases b.once n hn with ⟨-, none⟩ | ⟨gone, -⟩
        · exact none
        · exact absurd this (gone c cLive)
      refine ⟨fun q hq eq => ?_, (count n).trans (by rw [if_pos this, none])⟩
      obtain ⟨hq, qc⟩ := alive hq
      exact qc (h.serial_inj q c hq cLive (eq.trans this.symm))
    · have same : (s.returned ++ [(s.serial p, s.serial c)]).countP (·.2 = n) = s.returns n := by
        rw [count, if_neg this, Nat.add_zero]
      rcases b.once n hn with ⟨⟨q, hq, eq⟩, none⟩ | ⟨gone, one⟩
      · refine .inl ⟨⟨q, ?_, eq⟩, same.trans none⟩
        have qc : q ≠ c := by
          rintro rfl
          exact this eq
        change Function.update s.live c false q = true
        rw [Function.update_of_ne qc]
        exact hq
      · exact .inr ⟨fun q hq => gone q (alive hq).1, same.trans one⟩
  · obtain ⟨had, waits, returns⟩ := b.fresh n hn
    have serial : ∀ {q}, s.live q → s.serial q ≠ n := fun hq =>
      Nat.ne_of_lt (Nat.lt_of_lt_of_le (h.serial_lt _ hq) hn)
    refine ⟨?_, ?_, ?_⟩
    · change Function.update s.had _ _ n = 0
      rw [Function.update_of_ne (serial h.init_live.1).symm, had]
    · change List.countP _ (s.returned ++ _) = 0
      rw [List.countP_append, List.countP_singleton]
      rw [if_neg (by simpa using serial k.caller)]
      exact waits
    · change List.countP _ (s.returned ++ _) = 0
      rw [List.countP_append, List.countP_singleton]
      rw [if_neg (by simpa using serial cLive)]
      exact returns

/-- What `wait` does, in terms of the lists. -/
theorem wait_cases (h : Rep s kids init) (b : Books s kids) (live : s.live p) :
    (kids p = [] ∧ s.wait p = (s, .failed)) ∨
      (kids p ≠ [] ∧ (∀ x ∈ kids p, s.threadAliveCount x ≠ 0) ∧ s.wait p = (s, .blocked)) ∨
      ∃ x ∈ kids p, s.threadAliveCount x = 0 ∧
        s.wait p = (s.reap p x init, .returned (s.pid x) (s.status x)) := by
  have listed := h.childrenOf_eq live
  have rootFirst : s.children s.root = some init := by rw [h.head s.root h.root, h.first]; rfl
  cases hk : kids p with
  | nil =>
      refine .inl ⟨rfl, ?_⟩
      rw [Tree.wait, h.head p live, hk]
      rfl
  | cons a l =>
      have head : s.children p = some a := by rw [h.head p live, hk]; rfl
      rw [Tree.wait, head, Tree.findExitedChild, listed, hk, rootFirst]
      dsimp only
      cases found : (a :: l).find? fun x => decide (s.threadAliveCount x = 0) with
      | none =>
          refine .inr (.inl ⟨by simp, fun x hx => ?_, rfl⟩)
          simpa using List.find?_eq_none.mp found x hx
      | some x =>
          have mem := List.mem_of_find?_eq_some found
          have exited := List.find?_some found
          refine .inr (.inr ⟨x, mem, by simpa using exited, ?_⟩)
          obtain ⟨alive, rest, eq⟩ := b.first x (h.kid p x live (hk ▸ mem)).1
          dsimp only
          rw [eq]
          rfl

theorem Inv.wait (inv : Inv s) (live : s.live p) (ne : p ≠ s.root) : Inv (s.wait p).1 := by
  have keep := inv
  obtain ⟨kids, init, h, b⟩ := inv
  rcases wait_cases h b live with ⟨-, eq⟩ | ⟨-, -, eq⟩ | ⟨x, mem, -, eq⟩
  · rw [eq]
    exact keep
  · rw [eq]
    exact keep
  · rw [eq]
    exact ⟨_, init, h.reap ⟨live, ne, mem⟩, b.reap h ⟨live, ne, mem⟩⟩

/-! ### Statuses -/

theorem Inv.record (inv : Inv s) (i : Input) : Inv (s.record i) := by
  obtain ⟨kids, init, h, b⟩ := inv
  exact ⟨kids, init,
    ⟨⟨h.ring, h.head, h.apart⟩, h.kid, h.owned, h.root, h.orphan, h.first, h.serial_root,
      h.serial_init, h.serial_lt, h.serial_inj, h.older⟩, b.first, b.had, b.once, b.fresh⟩

/-- What a call does to the statuses and the threads of the processes: only its own
process changes, and a new one starts with a thread and status 0. -/
structure Effect (s : Tree) (i : Input) (s' : Tree) : Prop where
  declared : s'.declared = s.declared
  exitStatus : s'.exitStatus = s.exitStatus
  created : s.created ≤ s'.created
  own : s'.serial i.p = s.serial i.p ∧ s'.status i.p = i.call.status?.getD (s.status i.p)
  others : ∀ q, s'.live q → q ≠ i.p →
    (s.live q ∧ s'.serial q = s.serial q ∧ s'.status q = s.status q ∧
      s'.threadAliveCount q = s.threadAliveCount q) ∨
    (s'.serial q = s.created ∧ s.created < s'.created ∧ s'.status q = 0 ∧
      s'.threadAliveCount q ≠ 0)

theorem Statuses.record {i : Input} {s' : Tree} (h : Statuses s) (rep : Rep s kids init)
    (live : s.live i.p) (effect : Effect s i s') : Statuses (s'.record i) := by
  obtain ⟨serial, status⟩ := effect.own
  have before := rep.serial_lt i.p live
  have given : i.call.status?.getD (s.declared (s.serial i.p)) = s'.status i.p := by
    rw [status, h.given i.p live]
  -- the serial of another process is not that of the caller
  have apart : ∀ q, s'.live q → q ≠ i.p → s'.serial q ≠ s.serial i.p := by
    intro q hq ne
    rcases effect.others q hq ne with ⟨old, same, -⟩ | ⟨new, -⟩
    · rw [same]
      exact fun eq => ne (rep.serial_inj q i.p old live eq)
    · rw [new]
      exact Nat.ne_of_gt before
  refine ⟨fun q hq => ?_, fun q hq none => ?_, fun n hn => ?_⟩
  · change s'.status q = Function.update s'.declared _ _ (s'.serial q)
    rw [serial, effect.declared, given]
    by_cases same : q = i.p
    · rw [same, serial, Function.update_self]
    · rw [Function.update_of_ne (apart q hq same)]
      rcases effect.others q hq same with ⟨old, serial', status', -⟩ | ⟨new, -, zero, -⟩
      · rw [serial', status', h.given q old]
      · rw [new, zero, h.fresh s.created (Nat.le_refl _)]
  · change s'.threadAliveCount q = 0 at none
    change (if _ then _ else _ : Nat → Option Int) (s'.serial q) = some (s'.status q)
    rw [serial, effect.declared, given, effect.exitStatus]
    by_cases same : q = i.p
    · subst same
      rw [if_pos none, serial, Function.update_self]
    · have kept : s.exitStatus (s'.serial q) = some (s'.status q) := by
        rcases effect.others q hq same with ⟨old, serial', status', count⟩ | ⟨-, -, -, alive⟩
        · rw [serial', status', h.exited q old (count ▸ none)]
        · exact absurd none alive
      split
      · rw [Function.update_of_ne (apart q hq same), kept]
      · exact kept
  · change Function.update s'.declared _ _ n = 0
    change s'.created ≤ n at hn
    have := effect.created
    rw [serial, effect.declared, Function.update_of_ne (by omega)]
    exact h.fresh n (by omega)

/-- A call that changes the threads and the status of its own process only. -/
theorem effect_own {i : Input} {s' : Tree} (declared : s'.declared = s.declared)
    (exitStatus : s'.exitStatus = s.exitStatus) (created : s'.created = s.created)
    (live : s'.live = s.live) (serial : s'.serial = s.serial)
    (status : s'.status = Function.update s.status i.p (i.call.status?.getD (s.status i.p)))
    (tcbs : ∀ q, q ≠ i.p → s'.tcbs q = s.tcbs q) : Effect s i s' := by
  refine ⟨declared, exitStatus, Nat.le_of_eq created.symm, ⟨by rw [serial], ?_⟩, fun q hq ne => .inl ?_⟩
  · rw [status, Function.update_self]
  · rw [live] at hq
    refine ⟨hq, by rw [serial], by rw [status, Function.update_of_ne ne], ?_⟩
    rw [Tree.threadAliveCount, tcbs q ne]
    rfl

theorem effect_fork (rep : Rep s kids init) {i : Input} (live : s.live i.p) {addr : Option Nat}
    {allocated : Bool} (isFork : i.call = .fork addr allocated) :
    Effect s i (s.fork i.p addr allocated) := by
  have unchanged : Effect s i s :=
    effect_own rfl rfl rfl rfl rfl (by rw [isFork]; exact (Function.update_eq_self ..).symm)
      fun _ _ => rfl
  unfold Tree.fork
  split
  swap
  · exact unchanged
  cases addr with
  | none => exact unchanged
  | some addr =>
  dsimp only
  split
  · exact unchanged
  rename_i free
  rw [Bool.not_eq_true] at free
  have dead : ∀ {q}, s.live q → q ≠ addr := by
    rintro q hq rfl
    rw [free] at hq
    cases hq
  have old : ∀ q, q ≠ addr → (s.pushChild i.p addr).status q = s.status q ∧
      (s.pushChild i.p addr).tcbs q = s.tcbs q := fun q ne =>
    ⟨Function.update_of_ne ne .., Function.update_of_ne ne ..⟩
  cases allocated with
  | false =>
      rw [if_neg Bool.false_ne_true]
      obtain ⟨front, -, -, popped⟩ := popChild_pushChild rep live free
      rw [popped]
      refine ⟨rfl, rfl, Nat.le_refl _, ⟨rfl, ?_⟩, fun q hq ne => .inl ?_⟩
      · rw [isFork]
        exact (old i.p (dead live)).1
      · have hq : s.live q := hq
        obtain ⟨status, tcbs⟩ := old q (dead hq)
        exact ⟨hq, rfl, status, by rw [Tree.threadAliveCount, tcbs]; rfl⟩
  | true =>
      rw [if_pos rfl]
      refine ⟨rfl, rfl, Nat.le_succ _, ⟨Function.update_of_ne (dead live) .., ?_⟩, fun q hq ne => ?_⟩
      · rw [isFork]
        exact (old i.p (dead live)).1
      · by_cases new : q = addr
        · subst new
          refine .inr ⟨Function.update_self .., Nat.lt_succ_self _, Function.update_self .., ?_⟩
          simp [Tree.threadAliveCount]
        · have hq : s.live q := by simpa [Tree.pushChild, new] using hq
          obtain ⟨status, tcbs⟩ := old q new
          refine .inl ⟨hq, Function.update_of_ne new .., status, ?_⟩
          simp [Tree.threadAliveCount, new, tcbs]

theorem effect_wait (rep : Rep s kids init) (b : Books s kids) {i : Input} (live : s.live i.p)
    (isWait : i.call = .wait) : Effect s i (s.wait i.p).1 := by
  have unchanged : Effect s i s :=
    effect_own rfl rfl rfl rfl rfl (by rw [isWait]; exact (Function.update_eq_self ..).symm)
      fun _ _ => rfl
  rcases wait_cases rep b live with ⟨-, eq⟩ | ⟨-, -, eq⟩ | ⟨x, -, -, eq⟩
  · rw [eq]
    exact unchanged
  · rw [eq]
    exact unchanged
  · rw [eq, reap_frame]
    refine ⟨rfl, rfl, Nat.le_refl _, ⟨rfl, by rw [isWait]; rfl⟩, fun q hq ne => .inl ⟨?_, rfl, rfl, rfl⟩⟩
    by_cases gone : q = x
    · subst gone
      simp at hq
    · simpa [gone] using hq

theorem effect_call (inv : Inv s) {i : Input} (live : s.live i.p) : Effect s i (s.call i) := by
  obtain ⟨kids, init, h, b⟩ := inv
  have same : ∀ st : Nat → Int, st = Function.update st i.p (st i.p) := fun st =>
    (Function.update_eq_self ..).symm
  have apart : ∀ (l : List Tcb) (q : Nat), q ≠ i.p → Function.update s.tcbs i.p l q = s.tcbs q :=
    fun l q ne => Function.update_of_ne ne ..
  unfold Tree.call
  cases isCall : i.call with
  | fork addr allocated => exact effect_fork h live isCall
  | threadFork => exact effect_own rfl rfl rfl rfl rfl (by rw [isCall]; exact same _) (apart _)
  | vanish => exact effect_own rfl rfl rfl rfl rfl (by rw [isCall]; exact same _) (apart _)
  | taskVanish status =>
      refine effect_own rfl rfl rfl rfl rfl (by rw [isCall]; rfl) fun q ne => ?_
      simp [Tree.taskVanish, Tree.vanish, Tree.setStatus, ne]
  | setStatus status =>
      exact effect_own rfl rfl rfl rfl rfl (by rw [isCall]; rfl) fun _ _ => rfl
  | wait => exact effect_wait h b live isCall

/-! ### Runs -/

theorem statuses_boot {root init : Nat} : Statuses (boot root init) := by
  refine ⟨fun _ _ => rfl, fun q hq none => ?_, fun _ _ => rfl⟩
  have two : q = root ∨ q = init := by simpa [boot] using hq
  by_cases isInit : q = init
  · simp [Tree.threadAliveCount, boot, isInit] at none
  · obtain rfl := two.resolve_right isInit
    simp [Tree.threadAliveCount, boot, isInit] at none

theorem inv_boot {root init : Nat} (ne : root ≠ init) : Inv (boot root init) := by
  have two : ∀ {q}, (boot root init).live q → q = root ∨ q = init := fun hq => by
    simpa [boot] using hq
  have mem : ∀ {q x}, x ∈ Function.update (fun _ => []) root [init] q → q = root ∧ x = init := by
    intro q x hx
    by_cases same : q = root
    · rw [same, Function.update_self, List.mem_singleton] at hx
      exact ⟨same, hx⟩
    · rw [Function.update_of_ne same] at hx
      cases hx
  have parent : (boot root init).parent init = some root := by simp [boot]
  have orphan : (boot root init).parent root = none := by simp [boot, ne]
  have serial_root : (boot root init).serial root = 0 := by simp [boot, ne]
  have serial_init : (boot root init).serial init = 1 := by simp [boot]
  refine ⟨Function.update (fun _ => []) root [init], init, ?_, ?_⟩
  · refine { ring := ?_, head := ?_, apart := ?_, kid := ?_, owned := ?_, root := by simp [boot],
             orphan := orphan, first := Function.update_self ..,
             serial_root := serial_root, serial_init := serial_init, serial_lt := ?_,
             serial_inj := ?_, older := ?_ }
    · intro q hq
      rcases two hq with rfl | rfl
      · rw [Function.update_self]
        refine Links.ring_cons_iff.mpr ⟨by simp, by simp, rfl, rfl⟩
      · rw [Function.update_of_ne ne.symm]
        trivial
    · intro q hq
      rcases two hq with rfl | rfl
      · simp [boot]
      · simp [boot, ne.symm]
    · intro q q' _ _ hne x hx hx'
      exact hne ((mem hx).1.trans (mem hx').1.symm)
    · intro q x hq hx
      obtain ⟨rfl, rfl⟩ := mem hx
      exact ⟨by simp [boot], parent⟩
    · intro x hx hne
      rcases two hx with rfl | rfl
      · exact absurd rfl hne
      · exact ⟨root, by simp [boot], parent, by simp⟩
    · intro x hx
      rcases two hx with rfl | rfl
      · rw [serial_root]
        exact Nat.zero_lt_two
      · rw [serial_init]
        exact Nat.one_lt_two
    · intro x y hx hy eq
      rcases two hx with rfl | rfl <;> rcases two hy with rfl | rfl
      · rfl
      · rw [serial_root, serial_init] at eq
        cases eq
      · rw [serial_root, serial_init] at eq
        cases eq
      · rfl
    · intro x q hx hp
      rcases two hx with rfl | rfl
      · rw [orphan] at hp
        cases hp
      · rw [parent, Option.some.injEq] at hp
        subst hp
        rw [serial_root, serial_init]
        decide
  · refine ⟨fun q hq => ?_, fun q hq => ?_, fun n hn => ?_, fun n hn => ?_⟩
    · rcases two hq with rfl | rfl
      · exact ⟨true, [], by simp [boot, ne]⟩
      · exact ⟨true, [], by simp [boot]⟩
    · rcases two hq with rfl | rfl
      · simp [boot, ne, Tree.waits]
      · simp [boot, ne.symm, Tree.waits]
    · refine .inl ⟨?_, rfl⟩
      have : n = 0 ∨ n = 1 := by
        change n < 2 at hn
        omega
      rcases this with rfl | rfl
      · exact ⟨root, by simp [boot], serial_root⟩
      · exact ⟨init, by simp [boot], serial_init⟩
    · change 2 ≤ n at hn
      refine ⟨?_, rfl, rfl⟩
      have : n ≠ 0 := by omega
      simp [boot, this]

theorem Inv.call (inv : Inv s) {i : Input} (live : s.live i.p) (ne : i.p ≠ s.root) :
    Inv (s.call i) := by
  unfold Tree.call
  cases i.call with
  | fork addr allocated => exact inv.fork live ne addr allocated
  | threadFork => exact inv.threadFork
  | vanish => exact inv.vanish i.k
  | taskVanish status => exact inv.taskVanish i.k status
  | setStatus status => exact inv.setStatus status
  | wait => exact inv.wait live ne

theorem inv_step (s : Tree) (i : Input) (good : Inv s ∧ Statuses s) :
    Inv (step s i) ∧ Statuses (step s i) := by
  obtain ⟨inv, statuses⟩ := good
  unfold step
  split
  · rename_i runs
    obtain ⟨live, ne, -⟩ := runs
    have rep := inv
    obtain ⟨kids, init, h, -⟩ := rep
    exact ⟨(inv.call live ne).record i, statuses.record h live (effect_call inv live)⟩
  · exact ⟨inv, statuses⟩

/-- Every process but the root is in one list, once, and the processes that are
gone were returned once. -/
structure Accounted (s : Tree) : Prop where
  circular : ∀ q, s.live q → s.links.Ring (s.childrenOf q)
  listed : ∀ x, s.live x → x ≠ s.root → ∃ q, s.live q ∧ s.parent x = some q ∧
    (s.childrenOf q).count x = 1 ∧ ∀ q', s.live q' → x ∈ s.childrenOf q' → q' = q
  once : ∀ n < s.created, ((∃ q, s.live q ∧ s.serial q = n) ∧ s.returns n = 0) ∨
    ((∀ q, s.live q → s.serial q ≠ n) ∧ s.returns n = 1)

/-- What a call of `wait` by process `p` does; `init` is the first child of the
root. -/
structure WaitSpec (s : Tree) (p : Nat) : Prop where
  fails : s.childrenOf p = [] → s.wait p = (s, .failed)
  blocks : s.childrenOf p ≠ [] → (∀ x ∈ s.childrenOf p, s.threadAliveCount x ≠ 0) →
    s.wait p = (s, .blocked)
  reaps : ∀ x ∈ s.childrenOf p, s.threadAliveCount x = 0 → ∃ c ∈ s.childrenOf p, ∃ status,
    s.threadAliveCount c = 0 ∧ s.parent c = some p ∧ s.exitStatus (s.serial c) = some status ∧
    (s.wait p).2 = .returned (s.pid c) status ∧
    (s.wait p).1.live = Function.update s.live c false ∧
    (s.wait p).1.returned = s.returned ++ [(s.serial p, s.serial c)] ∧
    ∀ q, s.live q → q ≠ c → (s.wait p).1.childrenOf q = (s.childrenOf q).erase c ++
      if s.childrenOf s.root = [q] then s.childrenOf c else []
  ends : s.waits (s.serial p) = s.had (s.serial p) → s.wait p = (s, .failed)

theorem Inv.accounted (inv : Inv s) : Accounted s := by
  obtain ⟨kids, init, h, b⟩ := inv
  refine ⟨fun q hq => ?_, fun x hx ne => ?_, b.once⟩
  · rw [h.childrenOf_eq hq]
    exact h.ring q hq
  · obtain ⟨q, hq, hp, mem⟩ := h.owned x hx ne
    refine ⟨q, hq, hp, ?_, fun q' hq' mem' => ?_⟩
    · rw [h.childrenOf_eq hq]
      exact List.count_eq_one_of_mem (h.ring q hq).nodup mem
    · rw [h.childrenOf_eq hq'] at mem'
      by_contra other
      exact h.not_mem_of_ne hq' hq other mem' mem

theorem Inv.waitSpec (inv : Inv s) (statuses : Statuses s) (live : s.live p) (ne : p ≠ s.root) :
    WaitSpec s p := by
  obtain ⟨kids, init, h, b⟩ := inv
  have listed := h.childrenOf_eq live
  refine ⟨fun none => ?_, fun some busy => ?_, fun x hx exited => ?_, fun all => ?_⟩
  · rw [listed] at none
    rcases wait_cases h b live with ⟨-, eq⟩ | ⟨some, -⟩ | ⟨x, mem, -⟩
    · exact eq
    · exact absurd none some
    · rw [none] at mem
      cases mem
  · rw [listed] at some busy
    rcases wait_cases h b live with ⟨none, -⟩ | ⟨-, -, eq⟩ | ⟨x, mem, exited, -⟩
    · exact absurd none some
    · exact eq
    · exact absurd exited (busy x mem)
  · rw [listed] at hx ⊢
    rcases wait_cases h b live with ⟨none, -⟩ | ⟨-, busy, -⟩ | ⟨c, mem, exited', eq⟩
    · rw [none] at hx
      cases hx
    · exact absurd exited (busy x hx)
    · have k : Child s kids init p c := ⟨live, ne, mem⟩
      have rep := h.reap k
      refine ⟨c, mem, s.status c, exited', (h.kid p c live mem).2,
        statuses.exited c (k.live h) exited', by rw [eq], ?_, ?_, fun q hq qc => ?_⟩
      · rw [eq, reap_frame]
      · rw [eq, reap_frame]
      · have live' : (s.reap p c init).live q := by
          rw [reap_frame]
          simpa [qc] using hq
        rw [eq, rep.childrenOf_eq live', h.childrenOf_eq hq, h.childrenOf_eq h.root, h.first,
          h.childrenOf_eq (k.live h), reapedKids]
        simp [eq_comm]
  · have had := b.had p live
    rw [← all] at had
    have none : kids p = [] := List.eq_nil_of_length_eq_zero (by omega)
    rcases wait_cases h b live with ⟨-, eq⟩ | ⟨some, -⟩ | ⟨x, mem, -⟩
    · exact eq
    · exact absurd none some
    · rw [none] at mem
      cases mem

/-- After any calls of any processes: every process that is not reaped, but the
root, is in exactly one child list, once, and its parent pointer names the owner of
the list; a reap moves the children of the child to `init` and to nobody else;
every exited process is returned by one successful `wait`, to its parent at that
time and with its own tid and the status it exited with; and after as many successful waits as it
ever had children the next `wait` of a process fails. -/
theorem process_tree {root init : Nat} (ne : root ≠ init) (inputs : List Input) :
    Accounted (Run.run step (boot root init) inputs) ∧
      ∀ p k, (Run.run step (boot root init) inputs).Runs p k →
        WaitSpec (Run.run step (boot root init) inputs) p := by
  obtain ⟨inv, statuses⟩ := Run.run_invariant (P := fun s => Inv s ∧ Statuses s) inv_step
    ⟨inv_boot ne, statuses_boot⟩ inputs
  exact ⟨inv.accounted, fun p k runs => inv.waitSpec statuses runs.1 runs.2.1⟩

/-- `init` forks a process that forks another and exits with status 7; `init` is
returned the first and inherits the second. -/
theorem process_tree_orphan :
    let inputs := [⟨1, 0, .fork (some 2) true⟩, ⟨2, 0, .fork (some 3) true⟩,
      ⟨2, 0, .taskVanish 7⟩, ⟨1, 0, .wait⟩]
    let s := Run.run step (boot 0 1) inputs
    s.childrenOf 1 = [3] ∧ s.parent 3 = some 1 ∧ s.exitStatus 2 = some 7 ∧ s.Runs 1 0 ∧
      Accounted s ∧ WaitSpec s 1 := by
  intro inputs s
  have runs : s.Runs 1 0 := by decide
  exact ⟨by decide, by decide, by decide, runs, (process_tree (by decide) inputs).1,
    (process_tree (by decide) inputs).2 1 0 runs⟩

end OsKernel.Process
