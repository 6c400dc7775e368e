/-
Exclusion by the readers/writer locks (`user/libthread/rwlock.c`).

A thread waits once and never looks at the list again, so everything rests on the order of
the records: those whose threads may have the lock are a writer at the head, or the readers
before the first writer, and all others wait. A new record, and the record of a writer that
is put before the waiting readers, come behind this part; when a thread leaves, the part
keeps everyone else in it; and `rwlock_unlock` wakes nobody outside it, although the case for
readers falls through and signals a writer twice. So there is one writer or there are
readers, in every run without `rwlock_downgrade`.

`rwlock_downgrade` signals everyone from the first reader to the end. Where a writer has
queued behind a reader it gets the lock as well; in exactly the other runs exclusion holds.
-/

import OsKernel.Libthread.Rwlock

namespace OsKernel.Rwlock

open Run State

/-- The type of the lock that a thread has or requests. -/
def State.lockOf (s : State) (t : Thread) : Option LockType :=
  (findByThreadId s.rwList t).map Record.rwLockType

/-- The records of the threads that have the lock are in the leading part; they are readers,
or one writer. -/
structure Exclusive (s : State) : Prop where
  leading : ∀ t, s.holds t = true → ∃ r ∈ granted s.rwList, r.threadId = t
  exclusion : (∀ t, s.holds t = true → s.lockOf t = some .read) ∨
    ∃ w, s.lockOf w = some .write ∧ ∀ t, s.holds t = true ↔ t = w

/-- The threads that `rwlock_downgrade` is about to wake. -/
def Pc.toWake : Pc → List Thread
  | .signals .downgrade targets => targets
  | .wakes .downgrade u targets => u :: targets
  | _ => []

/-- Exclusion holds, and `rwlock_downgrade` signals only those that wait for a read lock. -/
structure DowngradesSafely (s : State) : Prop extends Exclusive s where
  readersOnly : ∀ t, ∀ u ∈ (s.pc t).toWake, s.lockOf u = some .read

/-- When `rwlock_downgrade` returns, everyone who has the lock has it for reading. -/
def LeavesReaders (s : State) : Input → Prop
  | .goOn t node reused => s.pc t = .signals .downgrade [] →
      (s.goOn t node reused).pc t = .holding → ∀ u, (s.goOn t node reused).holds u = true →
        (s.goOn t node reused).lockOf u = some .read
  | _ => True

/-- No writer is behind a reader. -/
def WritersFirst (l : List Record) : Prop := ∀ r ∈ l.dropWhile fun r => !r.reads, r.reads = true

/-- When `rwlock_downgrade` is called by a writer that has the lock, no writer is queued
behind a reader. -/
def Ordered (s : State) : Input → Prop
  | .downgrade t => s.locked = none → s.pc t = .holding → s.lockOf t = some .write →
      WritersFirst s.rwList
  | _ => True

/-! ### The invariant -/

/-- The call in which the thread holds the mutex. -/
def Pc.caller : Pc → Option Caller
  | .signals caller _ | .wakes caller .. => some caller
  | .moves .. => some .downgrade
  | _ => none

/-- The thread of the record may have been woken. -/
def May (s : State) (r : Record) : Prop :=
  r ∈ granted s.rwList ∨ r.reads = true ∧ ∃ t, (s.pc t).caller = some .downgrade

/-- What a call that signals has done so far. -/
def Calls (s : State) (t : Thread) : Caller → Prop
  | .unlock => s.waiting t = false ∧ t ∉ s.rwList.map Record.threadId
  | .downgrade => s.waiting t = false ∧ WritersFirst s.rwList ∧
      (∃ rest, s.rwList = ⟨t, .write⟩ :: rest) ∧ ∀ u ≠ t, s.pc u ≠ .holding

def Target (s : State) (u : Thread) : Caller → Prop
  | .unlock => ∃ r ∈ granted s.rwList, r.threadId = u
  | .downgrade => ⟨u, .read⟩ ∈ s.rwList

/-- What holds of a thread. -/
def Fits (s : State) (t : Thread) : Pc → Prop
  | .idle => s.waiting t = false ∧ t ∉ s.rwList.map Record.threadId
  | .registered | .descheduled => s.waiting t = true ∨ t ∈ s.rwList.map Record.threadId
  | .awake | .holding => s.waiting t = false ∧ t ∈ s.rwList.map Record.threadId
  | .signals caller targets => s.locked = some t ∧ Calls s t caller ∧
      ∀ u ∈ targets, Target s u caller
  | .wakes caller u targets => s.locked = some t ∧ Calls s t caller ∧
      (∀ v ∈ targets, Target s v caller) ∧ Target s u caller ∧ s.waiting u = false
  | .moves .. => False

structure Inv (s : State) : Prop where
  nodup : (s.rwList.map Record.threadId).Nodup
  fits : ∀ t, Fits s t (s.pc t)
  waits : ∀ r ∈ s.rwList, s.waiting r.threadId = true ∨ May s r

/-- Somebody will not leave the loop of `rwlock_downgrade`, and keeps the mutex. -/
def Stuck (s : State) : Prop :=
  ∃ t record linked rest, s.locked = some t ∧ s.pc t = .moves record linked ∧
    s.rwList = ⟨t, .write⟩ :: rest ∧ record ≠ ⟨t, .write⟩ ∧
    ∀ u ≠ t, s.pc u = .idle ∨ s.pc u = .registered ∨ s.pc u = .descheduled ∨ s.pc u = .awake

section
variable {s : State} {t u : Thread} {r : Record} {caller : Caller}

theorem findByThreadId_eq {l : List Record} (nodup : (l.map Record.threadId).Nodup) (mem : r ∈ l) :
    findByThreadId l r.threadId = some r := by
  induction l with
  | nil => cases mem
  | cons first rest ih =>
      rw [List.map_cons, List.nodup_cons] at nodup
      rcases List.mem_cons.mp mem with rfl | mem
      · exact List.find?_cons_of_pos (by simp)
      · have other : first.threadId ≠ r.threadId := fun same =>
          nodup.1 (same ▸ List.mem_map_of_mem mem)
        exact (List.find?_cons_of_neg (by simpa using other)).trans (ih nodup.2 mem)

theorem Inv.lockOf (inv : Inv s) (mem : r ∈ s.rwList) : s.lockOf r.threadId = some r.rwLockType :=
  congrArg (Option.map Record.rwLockType) (findByThreadId_eq inv.nodup mem)

theorem Inv.same (inv : Inv s) {r' : Record} (mem : r ∈ s.rwList) (mem' : r' ∈ s.rwList)
    (same : r.threadId = r'.threadId) : r = r' :=
  List.inj_on_of_nodup_map inv.nodup mem mem' same

/-- The mutex is held by the thread that is in the middle of a call. -/
theorem Inv.owner (inv : Inv s) (busy : (s.pc t).caller = some caller) : s.locked = some t := by
  have fits := inv.fits t
  cases pc : s.pc t <;> rw [pc] at fits busy <;> try cases busy
  · exact fits.1
  · exact fits.1
  · exact fits.elim

theorem Inv.idle_of_open (inv : Inv s) (free : s.locked = none) (t : Thread) :
    (s.pc t).caller = none := by
  cases busy : (s.pc t).caller with
  | none => rfl
  | some caller => exact nomatch free.symm.trans (inv.owner busy)

theorem Inv.idle_of_other (inv : Inv s) (locked : s.locked = some t) (other : u ≠ t) :
    (s.pc u).caller = none := by
  cases busy : (s.pc u).caller with
  | none => rfl
  | some caller => exact absurd (Option.some.inj ((inv.owner busy).symm.trans locked)) other

/-- A thread outside the mutex looks at its own record only. -/
theorem Fits.congr {s s' : State} {pc : Pc} (fits : Fits s u pc) (outside : pc.caller = none)
    (waiting : s'.waiting u = s.waiting u)
    (mem : u ∈ s'.rwList.map Record.threadId ↔ u ∈ s.rwList.map Record.threadId) :
    Fits s' u pc := by
  cases pc <;> try cases outside
  all_goals
    simp only [Fits] at fits ⊢
    rw [waiting, mem]
    exact fits

/-- With no call under way, only the leading part has been woken. -/
theorem Inv.granted_of_open (inv : Inv s) (free : s.locked = none) (mem : r ∈ s.rwList)
    (woken : s.waiting r.threadId = false) : r ∈ granted s.rwList := by
  rcases (inv.waits r mem).resolve_left (by simp [woken]) with front | ⟨-, t, busy⟩
  · exact front
  · exact nomatch (inv.idle_of_open free t).symm.trans busy

/-- A thread that has the lock is in the leading part. -/
theorem Inv.leading (inv : Inv s) (holds : s.holds t = true) :
    ∃ r ∈ granted s.rwList, r.threadId = t := by
  have fits := inv.fits t
  have front {rest : List Record} (list : s.rwList = ⟨t, .write⟩ :: rest) :
      ∃ r ∈ granted s.rwList, r.threadId = t := by
    rw [list]
    exact ⟨⟨t, .write⟩, List.mem_singleton_self _, rfl⟩
  unfold State.holds at holds
  split at holds
  · rename_i pc
    rw [pc] at fits
    obtain ⟨woken, listed⟩ := fits
    obtain ⟨r, mem, rfl⟩ := List.mem_map.mp listed
    refine ⟨r, ?_, rfl⟩
    rcases (inv.waits r mem).resolve_left (by simp [woken]) with front | ⟨-, t', busy⟩
    · exact front
    · -- nobody else has the lock while a thread downgrades
      have fits' := inv.fits t'
      have alone : ∀ u ≠ t', s.pc u ≠ .holding := by
        cases pc' : s.pc t' <;> rw [pc'] at fits' busy <;> cases busy
        · exact fits'.2.1.2.2.2
        · exact fits'.2.1.2.2.2
        · exact fits'.elim
      have own : r.threadId ≠ t' := fun same => by
        rw [← same, pc] at busy
        cases busy
      exact absurd pc (alone _ own)
  · rename_i pc
    rw [pc] at fits
    obtain ⟨rest, list⟩ := fits.2.1.2.2.1
    exact front list
  · rename_i pc
    rw [pc] at fits
    obtain ⟨rest, list⟩ := fits.2.1.2.2.1
    exact front list
  · rename_i pc
    rw [pc] at fits
    exact fits.elim
  · cases holds

theorem Inv.exclusive (inv : Inv s) : Exclusive s := by
  refine ⟨fun t holds => inv.leading holds, ?_⟩
  rcases granted_cases s.rwList with ⟨w, rest, list, writes, alone⟩ | readers
  · have only (t : Thread) (holds : s.holds t = true) : t = w.threadId := by
      obtain ⟨r, front, rfl⟩ := inv.leading holds
      rw [alone, List.mem_singleton] at front
      rw [front]
    cases holds : s.holds w.threadId with
    | true =>
        have type : w.rwLockType = .write := by
          cases type : w.rwLockType with
          | read => simp [Record.reads, type] at writes
          | write => rfl
        refine .inr ⟨w.threadId, ?_, fun t => ⟨only t, fun same => same ▸ holds⟩⟩
        rw [inv.lockOf (list ▸ List.mem_cons_self), type]
    | false =>
        refine .inl fun t holds' => ?_
        rw [only t holds', holds] at holds'
        cases holds'
  · refine .inl fun t holds => ?_
    obtain ⟨r, front, rfl⟩ := inv.leading holds
    rw [inv.lockOf (granted_subset r front), of_decide_eq_true (readers r front)]

/-! ### Steps -/

theorem pc_goto_self (s : State) (t : Thread) (pc : Pc) : (s.goto t pc).pc t = pc :=
  Function.update_self ..

theorem pc_goto_other (other : u ≠ t) (pc : Pc) : (s.goto t pc).pc u = s.pc u :=
  Function.update_of_ne other ..

theorem May.goto {pc : Pc} (may : May s r) (same : pc.caller = (s.pc t).caller) :
    May (s.goto t pc) r := by
  refine may.imp_right fun ⟨reads, t', busy⟩ => ⟨reads, t', ?_⟩
  by_cases self : t' = t
  · rw [self, pc_goto_self, same, ← self]
    exact busy
  · rwa [pc_goto_other self]

/-- A thread goes on, in the same call, and nothing else changes. -/
theorem Inv.goto {pc : Pc} (inv : Inv s) (same : pc.caller = (s.pc t).caller)
    (fits : Fits s t pc) (enters : pc = .holding → s.locked = none) : Inv (s.goto t pc) := by
  have calls {u : Thread} {caller : Caller} (locked : s.locked = some u) (calls : Calls s u caller) :
      Calls (s.goto t pc) u caller := by
    cases caller with
    | unlock => exact calls
    | downgrade =>
        refine ⟨calls.1, calls.2.1, calls.2.2.1, fun v other => ?_⟩
        by_cases self : v = t
        · rw [self, pc_goto_self]
          exact fun holding => nomatch (enters holding).symm.trans locked
        · rw [pc_goto_other self]
          exact calls.2.2.2 v other
  have moved {u : Thread} {pc' : Pc} (fits : Fits s u pc') : Fits (s.goto t pc) u pc' := by
    cases pc' with
    | signals caller targets => exact ⟨fits.1, calls fits.1 fits.2.1, fits.2.2⟩
    | wakes caller u targets => exact ⟨fits.1, calls fits.1 fits.2.1, fits.2.2⟩
    | _ => exact fits
  refine ⟨inv.nodup, fun u => ?_, fun r mem => (inv.waits r mem).imp_right (May.goto · same)⟩
  by_cases self : u = t
  · rw [self, pc_goto_self]
    exact moved fits
  · rw [pc_goto_other self]
    exact moved (inv.fits u)

/-- A thread that may be woken is taken off its condition variable. -/
theorem Inv.clear (inv : Inv s) (listed : u ∈ s.rwList.map Record.threadId)
    (may : ∀ r ∈ s.rwList, r.threadId = u → May s r) :
    Inv { s with waiting := Function.update s.waiting u false } := by
  have off (v : Thread) (woken : s.waiting v = false) :
      Function.update s.waiting u false v = false := by
    by_cases self : v = u
    · rw [self]
      exact Function.update_self ..
    · rwa [Function.update_of_ne self]
  refine ⟨inv.nodup, fun v => ?_, fun r mem => ?_⟩
  · have fits := inv.fits v
    dsimp only
    have parked (fits : s.waiting v = true ∨ v ∈ s.rwList.map Record.threadId) :
        Function.update s.waiting u false v = true ∨ v ∈ s.rwList.map Record.threadId := by
      by_cases self : v = u
      · exact .inr (self ▸ listed)
      · rwa [Function.update_of_ne self]
    have calls {caller : Caller} (calls : Calls s v caller) :
        Calls { s with waiting := Function.update s.waiting u false } v caller := by
      cases caller with
      | unlock => exact ⟨off v calls.1, calls.2⟩
      | downgrade => exact ⟨off v calls.1, calls.2⟩
    cases pc : s.pc v <;> rw [pc] at fits
    · exact ⟨off v fits.1, fits.2⟩
    · exact parked fits
    · exact parked fits
    · exact ⟨off v fits.1, fits.2⟩
    · exact ⟨off v fits.1, fits.2⟩
    · exact ⟨fits.1, calls fits.2.1, fits.2.2⟩
    · exact ⟨fits.1, calls fits.2.1, fits.2.2.1, fits.2.2.2.1, off _ fits.2.2.2.2⟩
    · exact fits
  · by_cases self : r.threadId = u
    · exact .inr (may r mem self)
    · refine (inv.waits r mem).imp_left fun waiting => ?_
      exact (Function.update_of_ne self ..).trans waiting

/-- Someone comes with a new record, and has the lock or waits. -/
theorem Inv.enter {pc : Pc} {type : LockType} {l : List Record} (inv : Inv s)
    (idle : s.pc t = .idle) (free : s.locked = none) (perm : l.Perm (⟨t, type⟩ :: s.rwList))
    (keeps : ∀ r ∈ granted s.rwList, r ∈ granted l)
    (last : pc = .registered ∨ pc = .holding ∧ ⟨t, type⟩ ∈ granted l) :
    Inv { s.goto t pc with
      rwList := l
      waiting := Function.update s.waiting t (decide (pc = .registered)) } := by
  have own := inv.fits t
  rw [idle] at own
  have threads : (l.map Record.threadId).Perm (t :: s.rwList.map Record.threadId) :=
    perm.map Record.threadId
  have listed : t ∈ l.map Record.threadId := threads.mem_iff.mpr List.mem_cons_self
  refine ⟨threads.nodup_iff.mpr (List.nodup_cons.mpr ⟨own.2, inv.nodup⟩), fun u => ?_,
    fun r mem => ?_⟩
  · by_cases self : u = t
    · subst self
      refine cast (congrArg (Fits _ u) (pc_goto_self s u pc).symm) ?_
      rcases last with rfl | ⟨rfl, -⟩
      · exact .inr listed
      · exact ⟨Function.update_self .., listed⟩
    · refine cast (congrArg (Fits _ u) (pc_goto_other self pc).symm) ?_
      refine (inv.fits u).congr (inv.idle_of_open free u) (Function.update_of_ne self ..) ?_
      exact threads.mem_iff.trans (List.mem_cons.trans (or_iff_right self))
  · dsimp only
    rcases List.mem_cons.mp (perm.mem_iff.mp mem) with rfl | old
    · rcases last with rfl | ⟨-, front⟩
      · exact .inl (Function.update_self ..)
      · exact .inr (.inl front)
    · have other : r.threadId ≠ t := fun same => own.2 (same ▸ List.mem_map_of_mem old)
      rw [Function.update_of_ne other]
      cases woken : s.waiting r.threadId with
      | true => exact .inl rfl
      | false => exact .inr (.inl (keeps r (inv.granted_of_open free old woken)))

theorem Inv.grant {type : LockType} {l : List Record} (inv : Inv s) (idle : s.pc t = .idle)
    (free : s.locked = none) (perm : l.Perm (⟨t, type⟩ :: s.rwList))
    (keeps : ∀ r ∈ granted s.rwList, r ∈ granted l) (front : ⟨t, type⟩ ∈ granted l) (node : Bool) :
    Inv (s.grant t l node) := by
  unfold State.grant
  split
  · have entered := inv.enter idle free perm keeps (.inr ⟨(rfl : Pc.holding = .holding), front⟩)
    have own := inv.fits t
    rw [idle] at own
    have off : Function.update s.waiting t (decide (Pc.holding = .registered)) = s.waiting :=
      Function.update_eq_self_iff.mpr own.1.symm
    rw [off] at entered
    exact entered
  · exact inv

theorem Inv.wait {type : LockType} {l : List Record} (inv : Inv s) (idle : s.pc t = .idle)
    (free : s.locked = none) (perm : l.Perm (⟨t, type⟩ :: s.rwList))
    (keeps : ∀ r ∈ granted s.rwList, r ∈ granted l) (node : Bool) : Inv (s.wait t l node) := by
  cases node with
  | true => exact inv.enter idle free perm keeps (.inl rfl)
  | false =>
      have own := inv.fits t
      rw [idle] at own
      refine ⟨inv.nodup, fun u => ?_, fun r mem => ?_⟩
      · by_cases self : u = t
        · subst self
          refine cast (congrArg (Fits _ u) (pc_goto_self s u .registered).symm) ?_
          exact .inl (Function.update_self ..)
        · refine cast (congrArg (Fits _ u) (pc_goto_other self .registered).symm) ?_
          exact (inv.fits u).congr (inv.idle_of_open free u) (Function.update_of_ne self ..) Iff.rfl
      · have other : r.threadId ≠ t := fun same => own.2 (same ▸ List.mem_map_of_mem mem)
        cases woken : s.waiting r.threadId with
        | true => exact .inl ((Function.update_of_ne other ..).trans woken)
        | false => exact .inr (.inl (inv.granted_of_open free mem woken))

theorem Inv.lock (inv : Inv s) (idle : s.pc t = .idle) (free : s.locked = none) (type : LockType)
    (node : Bool) : Inv (s.lock t type node) := by
  have append (type : LockType) : (s.rwList ++ [(⟨t, type⟩ : Record)]).Perm (⟨t, type⟩ :: s.rwList) :=
    List.perm_append_singleton ..
  unfold State.lock
  cases type with
  | read =>
      dsimp only
      cases found : findByRwLockType s.rwList .write with
      | none =>
          refine inv.grant idle free (append _) (fun r front => granted_append front _) ?_ node
          rw [granted_of_reads]
          · exact List.mem_append_right _ (List.mem_singleton_self _)
          · intro r mem
            rcases List.mem_append.mp mem with old | new
            · cases type : r.rwLockType with
              | read => exact decide_eq_true type
              | write => exact absurd (decide_eq_true type) (List.find?_eq_none.mp found r old)
            · rw [List.mem_singleton.mp new]
              rfl
      | some firstW => exact inv.wait idle free (append _) (fun r front => granted_append front _) node
  | write =>
      dsimp only
      split
      · rename_i empty
        refine inv.grant idle free (by rw [empty]) (fun r front => ?_)
          (List.mem_singleton_self _) node
        rw [empty] at front
        cases front
      · exact inv.wait idle free (insertWriter_perm ..) (fun r front => granted_insertWriter front)
          node

theorem unlockTargets_granted (l : List Record) (type : LockType) :
    ∀ u ∈ unlockTargets l type, ∃ r ∈ granted l, r.threadId = u := by
  intro u mem
  have next (mem : u ∈ signalNext l) : ∃ r ∈ granted l, r.threadId = u := by
    rw [signalNext_eq] at mem
    exact List.mem_map.mp mem
  cases type with
  | write => exact next mem
  | read =>
      rcases List.mem_append.mp mem with writer | mem
      · cases l with
        | nil => cases writer
        | cons first rest =>
            rw [signalWriter] at writer
            split at writer
            · cases writer
            · rename_i writes
              rw [granted, if_neg writes]
              exact ⟨first, List.mem_singleton_self _, (List.mem_singleton.mp writer).symm⟩
      · exact next mem

theorem Inv.unlock (inv : Inv s) (runs : s.pc t = .holding ∨ s.pc t = .idle)
    (free : s.locked = none) : Inv (s.unlock t) := by
  unfold State.unlock
  cases found : findByThreadId s.rwList t with
  | none => exact inv
  | some mine =>
      have mem : mine ∈ s.rwList := List.mem_of_find?_eq_some found
      have own : mine.threadId = t := by simpa using List.find?_some found
      have listed : t ∈ s.rwList.map Record.threadId := own ▸ List.mem_map_of_mem mem
      have woken : s.waiting t = false := by
        have fits := inv.fits t
        rcases runs with pc | pc <;> rw [pc] at fits
        · exact fits.1
        · exact absurd listed fits.2
      have front : mine ∈ granted s.rwList := inv.granted_of_open free mem (own.symm ▸ woken)
      have perm : s.rwList.Perm (mine :: s.rwList.erase mine) := List.perm_cons_erase mem
      have threads := perm.map Record.threadId
      rw [List.map_cons, own] at threads
      obtain ⟨gone, nodup⟩ := List.nodup_cons.mp (threads.nodup_iff.mp inv.nodup)
      refine ⟨nodup, fun u => ?_, fun r kept => ?_⟩
      · by_cases self : u = t
        · subst self
          refine cast (congrArg (Fits _ u) (pc_goto_self s u _).symm) ?_
          exact ⟨rfl, ⟨Function.update_self .., gone⟩, fun v mem => unlockTargets_granted _ _ v mem⟩
        · refine cast (congrArg (Fits _ u) (pc_goto_other self _).symm) ?_
          refine (inv.fits u).congr (inv.idle_of_open free u) (Function.update_of_ne self ..) ?_
          exact (threads.mem_iff.trans (List.mem_cons.trans (or_iff_right self))).symm
      · have other : r.threadId ≠ t := fun same => gone (same ▸ List.mem_map_of_mem kept)
        have old := List.mem_of_mem_erase kept
        cases waits : s.waiting r.threadId with
        | true => exact .inl ((Function.update_of_ne other ..).trans waits)
        | false =>
            refine .inr (.inl (granted_erase (inv.granted_of_open free old waits) front ?_))
            exact fun same => other (same ▸ own)

theorem downgradeTargets_read {l : List Record} (ordered : WritersFirst l) :
    ∀ u ∈ downgradeTargets l, ⟨u, .read⟩ ∈ l := by
  intro u mem
  obtain ⟨r, behind, rfl⟩ := List.mem_map.mp mem
  have type : r.rwLockType = .read := of_decide_eq_true (ordered r behind)
  have mem := (List.dropWhile_suffix _).subset behind
  cases r
  cases type
  exact mem

theorem Inv.downgrade (inv : Inv s) (runs : s.pc t = .holding ∨ s.pc t = .idle)
    (free : s.locked = none) (ordered : Ordered s (.downgrade t)) : Inv (s.downgrade t) := by
  unfold State.downgrade
  cases list : s.rwList with
  | nil => exact inv
  | cons first rest =>
      dsimp only
      split
      · exact inv
      · rename_i writer
        obtain ⟨own, type⟩ := not_or.mp writer
        rw [not_not] at own type
        have head : first ∈ s.rwList := list ▸ List.mem_cons_self
        have fits := inv.fits t
        have holding : s.pc t = .holding := by
          refine runs.resolve_right fun pc => ?_
          rw [pc] at fits
          exact fits.2 (own ▸ List.mem_map_of_mem head)
        rw [holding] at fits
        have first' : first = ⟨t, .write⟩ := by
          cases first
          cases own
          cases type
          rfl
        have lockOf : s.lockOf t = some .write := by
          rw [← own, inv.lockOf head, type]
        have inOrder := ordered free holding lockOf
        have alone (u : Thread) (other : u ≠ t) : s.pc u ≠ .holding := fun pc => by
          obtain ⟨r, front, rfl⟩ := inv.leading (t := u) (by simp [State.holds, pc])
          rw [list, granted, if_neg (by simp [first', Record.reads]), List.mem_singleton] at front
          exact other (front ▸ own)
        rw [← list]
        refine ⟨inv.nodup, fun u => ?_, fun r mem => ?_⟩
        · by_cases self : u = t
          · subst self
            refine cast (congrArg (Fits _ u) (pc_goto_self s u _).symm) ?_
            refine ⟨rfl, ⟨fits.1, inOrder, ⟨rest, first' ▸ list⟩, fun v other => ?_⟩,
              downgradeTargets_read inOrder⟩
            exact (pc_goto_other other _).symm ▸ alone v other
          · refine cast (congrArg (Fits _ u) (pc_goto_other self _).symm) ?_
            exact (inv.fits u).congr (inv.idle_of_open free u) rfl Iff.rfl
        · refine (inv.waits r mem).imp_right fun may => ?_
          refine may.imp_right fun granting => ?_
          obtain ⟨-, t', busy⟩ := granting
          cases (inv.idle_of_open free t').symm.trans busy

/-- The writer has become a reader, in front of readers only or of writers only. -/
theorem Inv.downgraded {rest : List Record} (inv : Inv s) (locked : s.locked = some t)
    (woken : s.waiting t = false) (list : s.rwList = ⟨t, .write⟩ :: rest)
    (uniform : (∀ r ∈ rest, r.reads = true) ∨ ∀ r ∈ rest, r.reads = false) :
    Inv { s.goto t .holding with rwList := ⟨t, .read⟩ :: rest, locked := none } := by
  have threads : (⟨t, .read⟩ :: rest : List Record).map Record.threadId =
      s.rwList.map Record.threadId := by rw [list]; rfl
  refine ⟨threads ▸ inv.nodup, fun u => ?_, fun r mem => ?_⟩
  · by_cases self : u = t
    · subst self
      refine cast (congrArg (Fits _ u) (pc_goto_self s u _).symm) ?_
      exact ⟨woken, List.mem_cons_self⟩
    · refine cast (congrArg (Fits _ u) (pc_goto_other self _).symm) ?_
      exact (inv.fits u).congr (inv.idle_of_other locked self) rfl (by rw [← threads])
  · rcases List.mem_cons.mp mem with rfl | behind
    · exact .inr (.inl List.mem_cons_self)
    · rcases uniform with readers | writers
      · refine .inr (.inl ?_)
        dsimp only
        rw [granted_of_reads]
        · exact mem
        · intro r mem
          rcases List.mem_cons.mp mem with rfl | mem
          · rfl
          · exact readers r mem
      · have old : r ∈ s.rwList := list ▸ List.mem_cons_of_mem _ behind
        refine .inl ((inv.waits r old).resolve_right ?_)
        rintro (front | ⟨reads, -⟩)
        · rw [list, granted, if_neg (by simp [Record.reads]), List.mem_singleton] at front
          have nodup := inv.nodup
          rw [list, List.map_cons, List.nodup_cons] at nodup
          rw [front] at behind
          exact nodup.1 (List.mem_map_of_mem behind)
        · cases (writers r behind).symm.trans reads

theorem Inv.endDowngrade (inv : Inv s) (ends : s.pc t = .signals .downgrade []) :
    Inv (s.endDowngrade t) ∨ Stuck (s.endDowngrade t) := by
  have fits := inv.fits t
  rw [ends] at fits
  obtain ⟨locked, ⟨woken, ordered, ⟨rest, list⟩, alone⟩, -⟩ := fits
  have downgraded (uniform : (∀ r ∈ rest, r.reads = true) ∨ ∀ r ∈ rest, r.reads = false) :=
    inv.downgraded locked woken list uniform
  unfold State.endDowngrade
  rw [list]
  dsimp only
  cases found : findByRwLockType (⟨t, .write⟩ :: rest) .read with
  | none =>
      refine .inl (downgraded (.inr fun r mem => ?_))
      have notRead := List.find?_eq_none.mp found r (List.mem_cons_of_mem _ mem)
      exact Bool.eq_false_iff.mpr notRead
  | some reader =>
      cases rest with
      | nil => exact .inl (downgraded (.inl nofun))
      | cons second rest =>
          dsimp only
          split
          · rename_i reads
            refine .inl (downgraded (.inl fun r mem => ordered r ?_))
            rw [list, List.dropWhile_cons_of_pos (by rfl), List.dropWhile_cons_of_neg (by simp [reads])]
            exact mem
          · refine .inr ⟨t, second, true, second :: rest, locked, pc_goto_self .., list, ?_, ?_⟩
            · have nodup := inv.nodup
              rw [list, List.map_cons, List.nodup_cons] at nodup
              rintro rfl
              exact nodup.1 List.mem_cons_self
            · intro u other
              rw [pc_goto_other other]
              have outside := inv.idle_of_other locked other
              have notHolding := alone u other
              cases pc : s.pc u <;> rw [pc] at outside notHolding <;> simp at notHolding ⊢ <;>
                cases outside

theorem Inv.goOn (inv : Inv s) (t : Thread) (node reused : Bool) :
    Inv (s.goOn t node reused) ∨ Stuck (s.goOn t node reused) := by
  have fits := inv.fits t
  unfold State.goOn
  split
  · rename_i caller u targets pc
    rw [pc] at fits
    obtain ⟨locked, calls, target⟩ := fits
    have first := target u List.mem_cons_self
    have others : ∀ v ∈ targets, Target s v caller :=
      fun v mem => target v (List.mem_cons_of_mem u mem)
    refine .inl ?_
    split
    · have may : ∃ r ∈ s.rwList, r.threadId = u ∧ May s r := by
        cases caller with
        | unlock =>
            obtain ⟨r, front, own⟩ := first
            exact ⟨r, granted_subset r front, own, .inl front⟩
        | downgrade => exact ⟨⟨u, .read⟩, first, rfl, .inr ⟨rfl, t, by rw [pc]; rfl⟩⟩
      obtain ⟨r, mem, own, may⟩ := may
      have cleared := inv.clear (own ▸ List.mem_map_of_mem mem) fun r' mem' own' =>
        inv.same mem mem' (own.trans own'.symm) ▸ may
      have fits := cleared.fits t
      dsimp only at fits
      rw [pc] at fits
      refine cleared.goto (by rw [pc]; rfl) ⟨locked, ?_, others, first, Function.update_self ..⟩ nofun
      exact fits.2.1
    · exact inv.goto (by rw [pc]; rfl) ⟨locked, calls, others⟩ nofun
  · rename_i caller u targets pc
    rw [pc] at fits
    obtain ⟨locked, calls, target, first, woken⟩ := fits
    refine .inl ?_
    split
    · rename_i sleeps
      have listed : u ∈ s.rwList.map Record.threadId := by
        cases caller with
        | unlock =>
            obtain ⟨r, front, own⟩ := first
            exact own ▸ List.mem_map_of_mem (granted_subset r front)
        | downgrade => exact List.mem_map_of_mem first
      have other : t ≠ u := fun same => by
        rw [← same, pc] at sleeps
        cases sleeps
      have awake : Inv (s.goto u .awake) := inv.goto (by rw [sleeps]; rfl) ⟨woken, listed⟩ nofun
      have fits := awake.fits t
      rw [pc_goto_other other, pc] at fits
      refine awake.goto (by rw [pc_goto_other other, pc]; rfl) ⟨locked, fits.2.1, target⟩ nofun
    · exact inv
  · rename_i pc
    rw [pc] at fits
    obtain ⟨locked, ⟨off, gone⟩, -⟩ := fits
    refine .inl ⟨inv.nodup, fun u => ?_, fun r mem => (inv.waits r mem).imp_right fun may => ?_⟩
    · by_cases self : u = t
      · subst self
        refine cast (congrArg (Fits _ u) (pc_goto_self s u _).symm) ?_
        exact ⟨off, gone⟩
      · refine cast (congrArg (Fits _ u) (pc_goto_other self _).symm) ?_
        exact (inv.fits u).congr (inv.idle_of_other locked self) rfl Iff.rfl
    · refine may.imp_right fun ⟨reads, t', busy⟩ => ?_
      have self := Option.some.inj ((inv.owner busy).symm.trans locked)
      rw [self, pc] at busy
      cases busy
  · rename_i pc
    exact inv.endDowngrade pc
  · rename_i pc
    rw [pc] at fits
    exact fits.elim
  · exact .inl inv

theorem Inv.step {input : Input} (inv : Inv s) (ordered : Ordered s input) :
    Inv (s.step input) ∨ Stuck (s.step input) := by
  cases input with
  | lock t type record node =>
      refine .inl ?_
      unfold State.step
      dsimp only
      split
      · rename_i enabled
        exact inv.lock enabled.1 enabled.2.1 type node
      · exact inv
  | deschedule t =>
      refine .inl ?_
      unfold State.step
      dsimp only
      split
      · rename_i pc
        have fits := inv.fits t
        rw [pc] at fits
        exact inv.goto (by rw [pc]; rfl) fits nofun
      · exact inv
  | lockReturns t =>
      refine .inl ?_
      unfold State.step
      dsimp only
      split
      · rename_i enabled
        have fits := inv.fits t
        rw [enabled.1] at fits
        exact inv.goto (by rw [enabled.1]; rfl) fits fun _ => enabled.2
      · exact inv
  | unlock t =>
      refine .inl ?_
      unfold State.step
      dsimp only
      split
      · rename_i enabled
        exact inv.unlock enabled.1 enabled.2
      · exact inv
  | downgrade t =>
      refine .inl ?_
      unfold State.step
      dsimp only
      split
      · rename_i enabled
        exact inv.downgrade enabled.1 enabled.2 ordered
      · exact inv
  | goOn t node reused => exact inv.goOn t node reused

theorem Inv.downgradesSafely (inv : Inv s) : DowngradesSafely s := by
  refine ⟨inv.exclusive, fun t u mem => ?_⟩
  have fits := inv.fits t
  cases pc : s.pc t <;> rw [pc] at fits mem <;> try cases mem
  · rename_i caller targets
    cases caller with
    | unlock => cases mem
    | downgrade => exact inv.lockOf (fits.2.2 u mem)
  · rename_i caller v targets
    cases caller with
    | unlock => cases mem
    | downgrade =>
        rcases List.mem_cons.mp mem with rfl | mem
        · exact inv.lockOf fits.2.2.2.1
        · exact inv.lockOf (fits.2.2.1 u mem)

theorem Stuck.downgradesSafely (stuck : Stuck s) : DowngradesSafely s := by
  obtain ⟨t, record, linked, rest, -, pc, list, -, others⟩ := stuck
  have holds : s.holds t = true := by simp [State.holds, pc]
  have alone (u : Thread) (holds : s.holds u = true) : u = t := by
    by_contra other
    rcases others u other with pc | pc | pc | pc <;> simp [State.holds, pc] at holds
  refine ⟨⟨fun u holds => ?_, .inr ⟨t, ?_, fun u => ⟨alone u, fun same => same ▸ holds⟩⟩⟩,
    fun u v mem => ?_⟩
  · rw [alone u holds, list]
    exact ⟨⟨t, .write⟩, List.mem_singleton_self _, rfl⟩
  · rw [State.lockOf, list, findByThreadId, List.find?_cons_of_pos (by simp)]
    rfl
  · by_cases self : u = t
    · rw [self, pc] at mem
      cases mem
    · rcases others u self with pc | pc | pc | pc <;> rw [pc] at mem <;> cases mem

/-- The mutex is never given up again. -/
theorem Stuck.step (stuck : Stuck s) (input : Input) : Stuck (s.step input) := by
  have whole := stuck
  obtain ⟨t, record, linked, rest, locked, pc, list, apart, others⟩ := stuck
  cases input with
  | deschedule u =>
      unfold State.step
      dsimp only
      split
      · rename_i registered
        have other : u ≠ t := fun same => by
          rw [same, pc] at registered
          cases registered
        refine ⟨t, record, linked, rest, locked, ?_, list, apart, fun v away => ?_⟩
        · rw [pc_goto_other other.symm]
          exact pc
        · by_cases self : v = u
          · rw [self, pc_goto_self]
            exact .inr (.inr (.inl rfl))
          · rw [pc_goto_other self]
            exact others v away
      · exact whole
  | goOn u node reused =>
      unfold State.step
      dsimp only
      by_cases self : u = t
      · subst self
        unfold State.goOn
        rw [pc]
        dsimp only
        have removed : ∃ rest', (if linked = true then s.rwList.erase record else s.rwList) =
            ⟨u, .write⟩ :: rest' := by
          split
          · rw [list, List.erase_cons_tail (by simpa using apart.symm)]
            exact ⟨_, rfl⟩
          · exact ⟨rest, list⟩
        obtain ⟨rest', removed⟩ := removed
        rw [removed]
        refine ⟨u, record, node && reused, if node then rest' ++ [record] else rest', locked,
          pc_goto_self .., ?_, apart, fun v away => ?_⟩
        · dsimp only
          split <;> rfl
        · exact (pc_goto_other away _).symm ▸ others v away
      · have same : s.goOn u node reused = s := by
          rcases others u self with pc | pc | pc | pc <;> simp [State.goOn, pc]
        rw [same]
        exact whole
  | _ => simpa [State.step, locked] using whole

theorem Inv.leavesReaders {input : Input} (inv : Inv s)
    (next : Inv (s.step input) ∨ Stuck (s.step input)) : LeavesReaders s input := by
  cases input with
  | goOn t node reused =>
      intro ends returned u holds
      have fits := inv.fits t
      rw [ends] at fits
      obtain ⟨rest, list⟩ := fits.2.1.2.2.1
      have goes : s.goOn t node reused = s.endDowngrade t := by
        unfold State.goOn
        rw [ends]
      have reads : (s.goOn t node reused).lockOf t = some .read := by
        rw [goes] at returned ⊢
        unfold State.endDowngrade at returned ⊢
        rw [list] at returned ⊢
        dsimp only at returned ⊢
        have head : findByThreadId (⟨t, .read⟩ :: rest) t = some ⟨t, .read⟩ :=
          List.find?_cons_of_pos (by simp)
        split at returned
        · split at returned
          · rename_i behind
            rw [if_pos behind]
            exact congrArg (Option.map Record.rwLockType) head
          · rw [pc_goto_self] at returned
            cases returned
        · exact congrArg (Option.map Record.rwLockType) head
      have safe := next.elim Inv.downgradesSafely Stuck.downgradesSafely
      rcases safe.exclusion with readers | ⟨w, writes, only⟩
      · exact readers u holds
      · have self : t = w := (only t).mp (by
          change (s.goOn t node reused).holds t = true
          simp [State.holds, returned])
        rw [← self] at writes
        exact nomatch writes.symm.trans reads
  | _ => exact trivial

end

theorem inv_init : Inv .init := ⟨List.nodup_nil, fun _ => ⟨rfl, List.not_mem_nil⟩, nofun⟩

theorem sound_step (s : State) (input : Input) (sound : Inv s ∨ Stuck s)
    (ordered : Ordered s input) : Inv (s.step input) ∨ Stuck (s.step input) :=
  sound.elim (fun inv => inv.step ordered) fun stuck => .inr (stuck.step input)

/-- Of the threads to which `rwlock_lock` has returned there is one writer, or all are
readers, and their records are the leading writer or leading readers. -/
theorem rwlock_exclusive (inputs : List Input) (calls : ∀ t, .downgrade t ∉ inputs) :
    Along State.step Exclusive .init inputs := by
  have ordered : StepsMeet State.step Ordered .init inputs := by
    refine stepsMeet_of_inputs (fun input mem s => ?_) _
    cases input with
    | downgrade t => exact absurd mem (calls t)
    | _ => exact trivial
  exact along_of_stepsMeet
    (fun _ sound => (sound.elim Inv.downgradesSafely Stuck.downgradesSafely).toExclusive)
    sound_step (.inl inv_init) ordered

/-- A reader has the lock, a writer and another reader wait, and the reader goes. -/
def inTurn : List Input :=
  [.lock 0 .read true true, .lock 1 .write true true, .deschedule 1, .lock 2 .read true true,
    .unlock 0, .goOn 0 true false, .goOn 0 true false, .goOn 0 true false, .goOn 0 true false,
    .lockReturns 1, .deschedule 2]

theorem rwlock_exclusive_inTurn : Along State.step Exclusive .init inTurn ∧
    (run State.step .init inTurn).holds 1 = true ∧ (run State.step .init inTurn).holds 2 = false :=
  ⟨rwlock_exclusive inTurn (by simp [inTurn]), by decide, by decide⟩

/-! ### Downgrading -/

/-- A writer that has the lock is at the head. -/
theorem head_of_lockOf {s : State} {t : Thread} (inv : Inv s) (holding : s.pc t = .holding)
    (writes : s.lockOf t = some .write) : ∃ rest, s.rwList = ⟨t, .write⟩ :: rest := by
  obtain ⟨r, front, rfl⟩ := inv.leading (t := t) (by simp [State.holds, holding])
  have mem := granted_subset r front
  have type : r.rwLockType = .write := Option.some.inj ((inv.lockOf mem).symm.trans writes)
  rcases granted_cases s.rwList with ⟨w, rest, list, -, alone⟩ | readers
  · rw [alone, List.mem_singleton] at front
    refine ⟨rest, list.trans ?_⟩
    rw [← front, ← type]
  · exact nomatch type.symm.trans (of_decide_eq_true (readers r front))

theorem DowngradesSafely.ordered {s : State} {input : Input} (safe : DowngradesSafely (s.step input))
    (sound : Inv s ∨ Stuck s) : Ordered s input := by
  cases input with
  | downgrade t =>
      intro free holding writes
      rcases sound with inv | ⟨t', record, linked, rest, locked, -⟩
      · obtain ⟨rest, list⟩ := head_of_lockOf inv holding writes
        have after : s.step (.downgrade t) =
            { s.goto t (.signals .downgrade (downgradeTargets s.rwList)) with locked := some t } := by
          rw [State.step, if_pos ⟨.inl holding, free⟩, State.downgrade, list]
          simp
        rw [after] at safe
        intro r behind
        have target : r.threadId ∈ downgradeTargets s.rwList := List.mem_map_of_mem behind
        have reads := safe.readersOnly t r.threadId (by
          dsimp only
          rw [pc_goto_self]
          exact target)
        have own := inv.lockOf ((List.dropWhile_suffix _).subset behind)
        exact decide_eq_true (Option.some.inj (own.symm.trans reads))
      · exact nomatch free.symm.trans locked
  | _ => exact trivial

/-- The lock is downgraded safely in exactly the runs in which no writer is queued behind a
reader when it is. -/
theorem rwlock_downgrade_iff (inputs : List Input) :
    (Along State.step DowngradesSafely .init inputs ∧
        StepsMeet State.step LeavesReaders .init inputs) ↔
      StepsMeet State.step Ordered .init inputs := by
  constructor
  · rintro ⟨along, -⟩
    exact stepsMeet_of_along_inv (fun _ _ sound safe => safe.ordered sound) sound_step
      (.inl inv_init) along
  · intro ordered
    refine ⟨along_of_stepsMeet (fun _ sound => sound.elim Inv.downgradesSafely Stuck.downgradesSafely)
      sound_step (.inl inv_init) ordered, ?_⟩
    refine stepsMeet_of_stepsMeet (fun s input sound meets => ?_) sound_step (.inl inv_init) ordered
    rcases sound with inv | ⟨t, record, linked, rest, locked, pc, -, -, others⟩
    · exact inv.leavesReaders (inv.step meets)
    · cases input with
      | goOn u node reused =>
          intro ends
          by_cases self : u = t
          · rw [self, pc] at ends
            cases ends
          · rcases others u self with pc | pc | pc | pc <;> rw [pc] at ends <;> cases ends
      | _ => exact trivial

/-- A reader has the lock, and behind it queue a writer, a reader and another writer. The
first writer gets the lock, downgrades it, and wakes the other one as well. -/
def twoWriters : List Input :=
  [.lock 0 .read true true, .lock 1 .write true true, .deschedule 1, .lock 2 .read true true,
    .deschedule 2, .lock 3 .write true true, .deschedule 3] ++
    .unlock 0 :: List.replicate 4 (.goOn 0 true false) ++
    [.lockReturns 1, .downgrade 1] ++ List.replicate 5 (.goOn 1 true false) ++ [.lockReturns 3]

theorem writer_beside_readers : ¬ DowngradesSafely (run State.step .init twoWriters) := by
  intro safe
  have one : (run State.step .init twoWriters).holds 1 = true := by decide
  have three : (run State.step .init twoWriters).holds 3 = true := by decide
  rcases safe.exclusion with readers | ⟨w, -, only⟩
  · exact absurd (readers 3 three) (by decide)
  · exact absurd (((only 1).mp one).trans ((only 3).mp three).symm) (by decide)

end OsKernel.Rwlock
