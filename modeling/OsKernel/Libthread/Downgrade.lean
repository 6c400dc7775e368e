/-
The nodes of a lock in `rwlock_downgrade` (`user/libthread/rwlock.c`).

The call holds `rw_list_manipulation` from its first look at the list to its end, and
`cond_signal` touches no node of the list: it is an event, known by the record it is for.
What `malloc` finds is arbitrary, and may be a node that was freed. The last loop keeps the
pointer to the node that it moves: it goes on only if `append_node` got the same memory
again, and then with the same record.
-/

import OsKernel.Libthread.LinkedList
import OsKernel.Libthread.Rwlock

namespace OsKernel.Downgrade

open LinkedList Rwlock

structure Lock (α ρ : Type) where
  /-- The data of a node is its `rw_record`. -/
  nodes : Nodes α ρ
  record : ρ → Record
  rwList : Option α
  /-- The records whose `rw_lock_permission` was given to `cond_signal`. -/
  signals : List ρ

namespace Lock

variable {α ρ : Type} [DecidableEq α] [DecidableEq ρ]

/-- `find_by_rw_lock_type` -/
def findByRwLockType (s : Lock α ρ) (type : LockType) (fuel : Nat) : Except Stop (Option α) :=
  match s.rwList with
  | none => return none
  | some head => s.nodes.scan (fun x => do
      let r ← s.nodes.getData x
      return (s.record r).rwLockType = type) head fuel head

/-- The loop over the signals, from node `x` to the end. -/
def signalFrom (head : α) : Nat → α → Lock α ρ → Except Stop (Lock α ρ)
  | 0, _, _ => .error .fuel
  | n + 1, x, s => do
      let r ← s.nodes.getData x
      let s := { s with signals := s.signals ++ [r] }
      let next ← s.nodes.getNext x
      if next = head then return s
      signalFrom head n next s

/-- The loop that moves writers to the end; node `x` stays the same. -/
def moveWriters (x : α) : Nat → Lock α ρ → Except Stop (Lock α ρ)
  | 0, _ => .error .fuel
  | n + 1, s => do
      let test ← s.nodes.getData x
      if (s.record test).rwLockType = .write then
        let r ← s.nodes.getData x
        let (_, nodes) ← s.nodes.removeNode s.rwList x n
        let (_, nodes) ← nodes.appendNode s.rwList r
        moveWriters x n { s with nodes := nodes }
      else return s

/-- If there is a reader, the signals, and the writers to the end. -/
def grantReaders (s : Lock α ρ) (head : α) (fuel : Nat) : Except Stop (Lock α ρ) := do
  match ← s.findByRwLockType .read fuel with
  | none => return s
  | some reader =>
      let s ← signalFrom head fuel reader s
      let node ← s.nodes.getNext head
      moveWriters node fuel s

/-- The record of the caller becomes a reader's. -/
def setReader (s : Lock α ρ) (r : ρ) : Lock α ρ :=
  { s with record := Function.update s.record r { s.record r with rwLockType := .read } }

/-- `rwlock_downgrade` by thread `t`. -/
def rwlockDowngrade (s : Lock α ρ) (t : Thread) (fuel : Nat) : Except Stop (Lock α ρ) :=
  match s.rwList with
  | none => return s
  | some head => do
      let first ← s.nodes.getData head
      if (s.record first).threadId ≠ t ∨ (s.record first).rwLockType ≠ .write then return s
      let s ← s.grantReaders head fuel
      return s.setReader first

/-- The list has these nodes. -/
structure Listed (s : Lock α ρ) (l : List α) : Prop where
  holds : s.nodes.Holds l
  head : s.rwList = l.head?

/-- The records of the list, from the head on. -/
def Records (s : Lock α ρ) (rs : List ρ) : Prop := ∃ l, s.Listed l ∧ l.map s.nodes.data = rs

variable {s s' : Lock α ρ} {l m : List α} {head x : α} {first : ρ} {rest rs rs' : List ρ}
  {t : Thread}

/-- Whether the record asks for the lock as a reader. -/
def reads (s : Lock α ρ) (r : ρ) : Bool := (s.record r).reads

section
omit [DecidableEq ρ]

omit [DecidableEq α] in
theorem reads_eq_false {r : ρ} : s.reads r = false ↔ (s.record r).rwLockType = .write := by
  rw [reads, Record.reads]
  cases (s.record r).rwLockType <;> simp

/-- A list has one row of records. -/
theorem Records.unique (records : s.Records rs) (records' : s.Records rs') : rs = rs' := by
  obtain ⟨l, ⟨holds, head⟩, rfl⟩ := records
  obtain ⟨l', ⟨holds', head'⟩, rfl⟩ := records'
  rw [head] at head'
  cases l with
  | nil =>
      rw [List.head?_eq_none_iff.mp head'.symm]
  | cons a l =>
      obtain ⟨l', rfl⟩ := List.head?_eq_some_iff.mp head'.symm
      have walk := holds.ring.walk (n := l.length + l'.length + 1) (by omega)
      rw [holds'.ring.walk (by omega)] at walk
      rw [walk]

/-! ### The search and the signals -/

theorem Listed.find (listed : s.Listed l) (type : LockType) {fuel : Nat}
    (enough : l.length ≤ fuel) : s.findByRwLockType type fuel =
      .ok (l.find? fun x => (s.record (s.nodes.data x)).rwLockType = type) := by
  rw [findByRwLockType, listed.head]
  cases l with
  | nil => rfl
  | cons a l =>
      refine listed.holds.scan (fun x mem => ?_) enough
      rw [Nodes.getData_eq (listed.holds.allocated x mem)]
      rfl

theorem Listed.of_find (listed : s.Listed l) {type : LockType} {fuel : Nat} {found : Option α}
    (ends : s.findByRwLockType type fuel = .ok found) :
    found = l.find? fun x => (s.record (s.nodes.data x)).rwLockType = type := by
  have spec := listed.find type (Nat.le_add_left l.length fuel)
  rw [findByRwLockType] at ends spec
  cases list : s.rwList with
  | none =>
      rw [list] at ends spec
      rw [← Except.ok.injEq (ε := Stop), ← ends, ← spec]
  | some a =>
      rw [list] at ends spec
      dsimp only at ends spec
      have more := Nodes.scan_mono (Nat.le_add_right fuel l.length) ends
      rw [spec, Except.ok.injEq] at more
      exact more.symm

/-- The signals change nothing else. -/
theorem signalFrom_same {n : Nat} (ends : signalFrom head n x s = .ok s') :
    s'.nodes = s.nodes ∧ s'.record = s.record ∧ s'.rwList = s.rwList := by
  induction n generalizing x s with
  | zero => cases ends
  | succ n ih =>
      simp only [signalFrom, bind_eq_ok] at ends
      obtain ⟨r, -, next, -, ends⟩ := ends
      split at ends
      · cases ends
        exact ⟨rfl, rfl, rfl⟩
      · exact ih (s := { s with signals := s.signals ++ [r] }) ends

/-- The signals end. -/
theorem signalFrom_ends {n : Nat} (chain : (x :: m ++ [head]).IsChain s.nodes.links.Joined)
    (absent : head ∉ m) (out : ∀ y ∈ x :: m, s.nodes.allocated y = true) (fuel : m.length < n) :
    ∃ s', signalFrom head n x s = .ok s' := by
  induction m generalizing x s n with
  | nil =>
      obtain ⟨k, rfl⟩ := Nat.exists_eq_add_of_lt fuel
      have joined : s.nodes.links.next x = head := (List.isChain_pair.mp chain).1
      have outX := out x List.mem_cons_self
      simp only [signalFrom, bind_eq_ok, Nodes.getData_eq outX, Nodes.getNext_eq outX, joined]
      exact ⟨_, _, rfl, _, rfl, if_pos rfl⟩
  | cons y m ih =>
      cases n with
      | zero => simp at fuel
      | succ n =>
          rw [List.cons_append, List.cons_append, List.isChain_cons_cons] at chain
          obtain ⟨⟨next, -⟩, tail⟩ := chain
          rw [List.mem_cons, not_or] at absent
          have outX := out x List.mem_cons_self
          obtain ⟨s', ends⟩ := ih (s := { s with signals := s.signals ++ [s.nodes.data x] })
            (n := n) tail absent.2 (fun z mem => out z (List.mem_cons_of_mem x mem))
            (by simpa using fuel)
          refine ⟨s', ?_⟩
          simp only [signalFrom, bind_eq_ok, Nodes.getData_eq outX, Nodes.getNext_eq outX, next]
          exact ⟨_, rfl, _, rfl, (if_neg (Ne.symm absent.1)).trans ends⟩

/-! ### The loop that moves writers -/

theorem moveWriters_freed (freed : s.nodes.allocated x = false) (n : Nat) :
    moveWriters x n s ≠ .ok s' := by
  intro ends
  cases n with
  | zero => cases ends
  | succ n =>
      rw [moveWriters, Nodes.getData_freed freed] at ends
      cases ends

/-- Once it has moved a writer, the loop does not end: it comes to the node again, or the node
is not there any more. -/
theorem moveWriters_stuck (listed : s.Listed (head :: m)) (mem : x ∈ m)
    (writer : s.reads (s.nodes.data x) = false) (n : Nat) : moveWriters x n s ≠ .ok s' := by
  induction n generalizing s m with
  | zero => exact nofun
  | succ n ih =>
      intro ends
      have memList : x ∈ head :: m := List.mem_cons_of_mem head mem
      have out := listed.holds.allocated x memList
      have other : head ≠ x := by
        rintro rfl
        exact (List.nodup_cons.mp listed.holds.ring.nodup).1 mem
      simp only [moveWriters, Nodes.getData_eq out, bind_eq_ok] at ends
      obtain ⟨_, ⟨⟩, ends⟩ := ends
      rw [if_pos (reads_eq_false.mp writer)] at ends
      simp only [bind_eq_ok] at ends
      obtain ⟨_, ⟨⟩, removed, removes, added, adds, ends⟩ := ends
      rw [listed.head] at removes adds
      rw [listed.holds.of_removeNode memList removes, List.head?_cons] at adds
      dsimp only at adds ends
      have left : (head :: m).erase x = head :: m.erase x :=
        List.erase_cons_tail (by simpa using other)
      have holds := listed.holds.unlink memList
      rw [left] at holds
      obtain none | ⟨y, N, unused, appended, holds', data, allocated⟩ :=
        holds.appendNode (s.nodes.data x)
      · rw [List.head?_cons] at none
        rw [none, Except.ok.injEq] at adds
        subst adds
        exact moveWriters_freed (by simp) n ends
      · rw [List.head?_cons] at appended
        rw [appended, Except.ok.injEq] at adds
        subst adds
        by_cases same : y = x
        · subst same
          refine ih (s := { s with nodes := N }) (m := m.erase y ++ [y]) ⟨holds', listed.head⟩
            (by simp) ?_ ends
          change s.reads (N.data y) = false
          rw [data, Function.update_self]
          exact writer
        · refine moveWriters_freed ?_ n ends
          dsimp only
          rw [allocated, Function.update_of_ne (Ne.symm same)]
          exact Function.update_self ..

/-! ### The whole call -/

/-- No writer is right behind the caller, or there is no reader. -/
def Quiet (s : Lock α ρ) (m : List α) : Prop :=
  (∀ y ∈ m, s.reads (s.nodes.data y) = false) ∨ ∃ y k, m = y :: k ∧ s.reads (s.nodes.data y)

/-- The call comes to its end only if no writer has to be moved, and leaves the list alone. -/
theorem Listed.of_grantReaders (listed : s.Listed (head :: m))
    (own : s.reads (s.nodes.data head) = false) {fuel : Nat}
    (ends : s.grantReaders head fuel = .ok s') :
    s.Quiet m ∧ s'.nodes = s.nodes ∧ s'.record = s.record ∧ s'.rwList = s.rwList := by
  rw [grantReaders, bind_eq_ok] at ends
  obtain ⟨found, search, ends⟩ := ends
  have spec := listed.of_find search
  cases found with
  | none =>
      cases ends
      refine ⟨.inl fun y mem => ?_, rfl, rfl, rfl⟩
      have none := List.find?_eq_none.mp spec.symm y (List.mem_cons_of_mem head mem)
      rw [reads, Record.reads]
      simpa using none
  | some reader =>
      simp only [bind_eq_ok] at ends
      obtain ⟨s₁, signals, node, next, moves⟩ := ends
      obtain ⟨nodes, record, rwList⟩ := signalFrom_same signals
      have listed₁ : s₁.Listed (head :: m) := by
        refine ⟨?_, rwList.trans listed.head⟩
        rw [nodes]
        exact listed.holds
      have reads₁ : ∀ y, s₁.reads (s₁.nodes.data y) = s.reads (s.nodes.data y) := by
        intro y
        rw [reads, reads, nodes, record]
      cases m with
      | nil =>
          have mem := List.mem_of_find?_eq_some spec.symm
          have reading := List.find?_some spec.symm
          rw [List.mem_singleton.mp mem] at reading
          rw [reads, Record.reads] at own
          rw [own] at reading
          cases reading
      | cons y k =>
          have toNode : node = y := by
            rw [nodes, Nodes.getNext_eq (listed.holds.allocated head List.mem_cons_self),
              Except.ok.injEq] at next
            exact next.symm.trans listed.holds.ring.next_head
          subst toNode
          cases reading : s.reads (s.nodes.data node) with
          | false =>
              rw [← reads₁] at reading
              exact absurd moves (moveWriters_stuck listed₁ List.mem_cons_self reading fuel)
          | true =>
              refine ⟨.inr ⟨node, k, rfl, reading⟩, ?_⟩
              cases fuel with
              | zero => cases moves
              | succ n =>
                  have out := listed₁.holds.allocated node (by simp)
                  have reader : (s₁.record (s₁.nodes.data node)).rwLockType ≠ .write := by
                    rw [← reads₁] at reading
                    intro writer
                    rw [reads_eq_false.mpr writer] at reading
                    cases reading
                  rw [moveWriters, Nodes.getData_eq out, bind_eq_ok] at moves
                  obtain ⟨_, ⟨⟩, moves⟩ := moves
                  rw [if_neg reader] at moves
                  cases moves
                  exact ⟨nodes, record, rwList⟩

/-- Without a writer to be moved the call comes to its end. -/
theorem Listed.grantReaders_ends (listed : s.Listed (head :: m))
    (own : s.reads (s.nodes.data head) = false) (quiet : s.Quiet m) :
    ∃ fuel s', s.grantReaders head fuel = .ok s' := by
  have long : (head :: m).length ≤ m.length + 2 := by simp
  have search := listed.find .read long
  refine ⟨m.length + 2, ?_⟩
  simp only [grantReaders, bind_eq_ok]
  rcases quiet with writers | ⟨y, k, rfl, reading⟩
  · have none : (head :: m).find? (fun x => (s.record (s.nodes.data x)).rwLockType = .read) = none := by
      rw [List.find?_eq_none]
      intro x mem
      have writer : s.reads (s.nodes.data x) = false := by
        rcases List.mem_cons.mp mem with rfl | mem
        · exact own
        · exact writers x mem
      rw [reads, Record.reads] at writer
      simpa using writer
    rw [none] at search
    exact ⟨s, _, search, rfl⟩
  · have first : (head :: y :: k).find? (fun x => (s.record (s.nodes.data x)).rwLockType = .read) =
        some y := by
      rw [reads, Record.reads] at own reading
      simp only [List.find?_cons, own, reading]
    rw [first] at search
    have ring := listed.holds.ring
    obtain ⟨s₁, signals⟩ := signalFrom_ends (s := s) (n := (y :: k).length + 2)
      (List.isChain_cons_cons.mp ring.2).2
      (fun mem => (List.nodup_cons.mp ring.nodup).1 (List.mem_cons_of_mem y mem))
      (fun z mem => listed.holds.allocated z (List.mem_cons_of_mem head mem)) (by simp; omega)
    obtain ⟨nodes, record, -⟩ := signalFrom_same signals
    have out := listed.holds.allocated
    have next : s₁.nodes.getNext head = .ok y := by
      rw [nodes, Nodes.getNext_eq (out head List.mem_cons_self), ring.next_head]
      rfl
    have reader : (s₁.record (s₁.nodes.data y)).rwLockType ≠ .write := by
      rw [nodes, record]
      intro writer
      rw [reads_eq_false.mpr writer] at reading
      cases reading
    have read : s₁.nodes.getData y = .ok (s₁.nodes.data y) :=
      Nodes.getData_eq (by rw [nodes]; exact out y (by simp))
    refine ⟨s₁, some y, search, ?_⟩
    simp only [bind_eq_ok]
    refine ⟨s₁, signals, y, next, ?_⟩
    rw [moveWriters, read, bind_eq_ok]
    exact ⟨_, rfl, if_neg reader⟩

/-- Readers first and then writers, as an order of the whole list. -/
theorem filter_append_filter_not_iff {p : ρ → Bool} {rs : List ρ} :
    rs.filter p ++ rs.filter (fun r => !p r) = rs ↔ rs.Pairwise fun r r' => p r' → p r := by
  induction rs with
  | nil => simp
  | cons r rs ih =>
      rw [List.pairwise_cons]
      cases test : p r with
      | true => simp [test, ← ih]
      | false =>
          simp only [test, Bool.false_eq_true, imp_false, Bool.not_eq_true, List.filter_cons,
            if_false, Bool.not_false, if_true]
          constructor
          · intro same
            have none : rs.filter p = [] := by
              cases found : rs.filter p with
              | nil => rfl
              | cons x xs =>
                  have mem : x ∈ rs.filter p := by rw [found]; exact List.mem_cons_self
                  rw [found, List.cons_append, List.cons.injEq] at same
                  rw [same.1, List.mem_filter, test] at mem
                  cases mem.2
            have writers : ∀ x ∈ rs, p x = false := by simpa using none
            refine ⟨writers, List.pairwise_of_forall_mem_list fun x _ y mem => ?_⟩
            simp [writers y mem]
          · rintro ⟨writers, -⟩
            rw [List.filter_eq_nil_iff.mpr fun x mem => by simp [writers x mem],
              List.filter_eq_self.mpr fun x mem => by simp [writers x mem]]
            rfl

end

/-- The call by a writer at the head of the list. -/
theorem Listed.rwlockDowngrade_iff (listed : s.Listed (head :: m))
    (own : s.record (s.nodes.data head) = ⟨t, .write⟩) {fuel : Nat} :
    s.rwlockDowngrade t fuel = .ok s' ↔
      ∃ s₁, s.grantReaders head fuel = .ok s₁ ∧ s' = s₁.setReader (s.nodes.data head) := by
  have accepted : ¬((s.record (s.nodes.data head)).threadId ≠ t ∨
      (s.record (s.nodes.data head)).rwLockType ≠ .write) := by simp [own]
  rw [rwlockDowngrade, listed.head, List.head?_cons]
  dsimp only
  rw [Nodes.getData_eq (listed.holds.allocated head List.mem_cons_self)]
  simp only [bind_eq_ok, Except.ok.injEq, exists_eq_left']
  rw [if_neg accepted, bind_eq_ok]
  simp only [pure, Except.pure, Except.ok.injEq, eq_comm (b := s')]

/-- The call ends, and leaves the caller as a reader, the other readers behind it, and then
the writers. -/
def Downgrades (s : Lock α ρ) (t : Thread) (first : ρ) (rest : List ρ) : Prop :=
  ∃ fuel s', s.rwlockDowngrade t fuel = .ok s' ∧
    s'.Records (first :: rest.filter s.reads ++ rest.filter fun r => !s.reads r) ∧
    s'.record = (s.setReader first).record

/-- `rwlock_downgrade` does its task if no writer stands before a reader behind the caller,
and in no other list, whatever `malloc` finds. -/
theorem downgrades_iff (records : s.Records (first :: rest)) (own : s.record first = ⟨t, .write⟩) :
    s.Downgrades t first rest ↔ rest.Pairwise fun r r' => s.reads r' → s.reads r := by
  obtain ⟨l, listed, row⟩ := records
  obtain ⟨head, m, rfl, rfl, rfl⟩ := List.map_eq_cons_iff.mp row
  have writer : s.reads (s.nodes.data head) = false := reads_eq_false.mpr (by rw [own])
  have after : ∀ s₁ : Lock α ρ, s₁.nodes = s.nodes → s₁.rwList = s.rwList →
      (s₁.setReader (s.nodes.data head)).Records (s.nodes.data head :: m.map s.nodes.data) := by
    intro s₁ nodes rwList
    refine ⟨head :: m, ⟨?_, rwList.trans listed.head⟩, ?_⟩
    · change s₁.nodes.Holds (head :: m)
      rw [nodes]
      exact listed.holds
    · change (head :: m).map s₁.nodes.data = _
      rw [nodes]
      rfl
  constructor
  · rintro ⟨fuel, s', ends, order, -⟩
    obtain ⟨s₁, grants, rfl⟩ := (listed.rwlockDowngrade_iff own).mp ends
    obtain ⟨-, nodes, -, rwList⟩ := listed.of_grantReaders writer grants
    have same := Records.unique order (after s₁ nodes rwList)
    rw [List.cons_append, List.cons.injEq] at same
    exact filter_append_filter_not_iff.mp same.2
  · intro order
    have quiet : s.Quiet m := by
      cases m with
      | nil => exact .inl nofun
      | cons y k =>
          cases reading : s.reads (s.nodes.data y) with
          | true => exact .inr ⟨y, k, rfl, reading⟩
          | false =>
              refine .inl fun z mem => ?_
              rcases List.mem_cons.mp mem with rfl | mem
              · exact reading
              · rw [List.map_cons, List.pairwise_cons] at order
                have first := order.1 _ (List.mem_map_of_mem mem)
                simpa [reading] using first
    obtain ⟨fuel, s₁, grants⟩ := listed.grantReaders_ends writer quiet
    obtain ⟨-, nodes, record, rwList⟩ := listed.of_grantReaders writer grants
    refine ⟨fuel, _, (listed.rwlockDowngrade_iff own).mpr ⟨s₁, grants, rfl⟩, ?_, ?_⟩
    · rw [List.cons_append, filter_append_filter_not_iff.mpr order]
      exact after s₁ nodes rwList
    · rw [setReader, setReader, record]

/-- The caller, and behind it a reader and a writer. -/
def ordered : Lock (Fin 3) (Fin 3) where
  nodes := ⟨⟨(· + 1), (· - 1)⟩, id, fun _ => true, fun _ => none⟩
  record r := ⟨r, if r = 1 then .read else .write⟩
  rwList := some 0
  signals := []

theorem listed_ordered : ordered.Listed [0, 1, 2] := by
  refine ⟨⟨⟨by decide, ?_⟩, fun _ _ => rfl⟩, rfl⟩
  exact .cons_cons ⟨rfl, rfl⟩ (.cons_cons ⟨rfl, rfl⟩ (.cons_cons ⟨rfl, rfl⟩ (.singleton 0)))

theorem downgrades_ordered : ordered.Downgrades 0 0 [1, 2] :=
  (downgrades_iff ⟨[0, 1, 2], listed_ordered, rfl⟩ rfl).mpr (by decide)

/-- The caller, and behind it a writer and a reader; `malloc` gives the node of the writer
again. -/
def mixed : Lock (Fin 3) (Fin 3) where
  nodes := ⟨⟨(· + 1), (· - 1)⟩, id, fun _ => true, fun _ => some 1⟩
  record r := ⟨r, if r = 2 then .read else .write⟩
  rwList := some 0
  signals := []

theorem listed_mixed : mixed.Listed [0, 1, 2] := by
  refine ⟨⟨⟨by decide, ?_⟩, fun _ _ => rfl⟩, rfl⟩
  exact .cons_cons ⟨rfl, rfl⟩ (.cons_cons ⟨rfl, rfl⟩ (.cons_cons ⟨rfl, rfl⟩ (.singleton 0)))

/-- The call does not end. -/
theorem mixed_stuck : mixed.Records [0, 1, 2] ∧ mixed.record 0 = ⟨0, .write⟩ ∧
    ¬ mixed.Downgrades 0 0 [1, 2] := by
  refine ⟨⟨[0, 1, 2], listed_mixed, rfl⟩, rfl, ?_⟩
  rintro ⟨fuel, s', ends, -⟩
  have own : mixed.record (mixed.nodes.data 0) = ⟨0, .write⟩ := rfl
  obtain ⟨s₁, grants, -⟩ := (listed_mixed.rwlockDowngrade_iff own).mp ends
  have quiet := (listed_mixed.of_grantReaders (by decide) grants).1
  rcases quiet with writers | ⟨y, k, split, reading⟩
  · exact absurd (writers 2 (by simp)) (by decide)
  · rw [List.cons.injEq] at split
    rw [← split.1] at reading
    exact absurd reading (by decide)

end Lock

end OsKernel.Downgrade
