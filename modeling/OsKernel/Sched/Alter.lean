/-
What `alter_state` (`kern/ctrl_blk.c`) keeps.

`alter_state` chooses the node that a thread goes before while the thread is still in its
old list. Where old and target list are the same one, this node may be its own: then the
thread ends in a circle of its own, outside of the list or as all of it. `Again` says for
each target state when this does not happen; in the `SLEEP` list the place at the end that
the old head gets may be the wrong one as well.
-/

import OsKernel.Sched.Rings
import OsKernel.Sched.Sleep

namespace OsKernel.Sched

/-- The list that a target state is for. -/
def targetIdx (state : ThreadState) (detail : BlockingDetail) : ListIdx :=
  if state = .waiting then .reason detail.reason else .state state

def InOrder (wakeupTime : Thread → BitVec 32) (l : List Thread) : Prop :=
  l.Pairwise fun u v => wakeupTime u ≤ wakeupTime v

/-- Thread `t` has come to the target list, and everything else is as it was. -/
structure Threads.Moves (k k' : Threads) (t : Thread) (target : ListIdx) : Prop where
  once : (k'.lists target).count t = 1
  elsewhere : ∀ i, i ≠ target → t ∉ k'.lists i
  others : ∀ i, (k'.lists i).filter (· ≠ t) = (k.lists i).filter (· ≠ t)
  sorted : InOrder (fun u => (k.tcb u).detail.wakeupTime) k.sleepers →
    InOrder (fun u => (k'.tcb u).detail.wakeupTime) k'.sleepers

/-- Where a thread of the `SLEEP` list can get a new time to wake up. -/
def SleepAgain (wakeupTime : Thread → BitVec 32) (w : BitVec 32) (t : Thread) :
    List Thread → Prop
  | [] => True
  | h :: rest =>
      if h = t then
        if w ≤ wakeupTime h then rest = []
        else (∃ u ∈ rest, w ≤ wakeupTime u) ∧ (InOrder wakeupTime (h :: rest) →
          ∀ x, rest.head? = some x → w ≤ wakeupTime x → ∀ u ∈ rest, wakeupTime u ≤ w)
      else w ≤ wakeupTime h ∨ rest.find? (fun u => w ≤ wakeupTime u) ≠ some t

/-- Where a thread of list `l` can be put into the same list again. -/
def Threads.Again (k : Threads) (t : Thread) (l : List Thread) :
    ThreadState → BlockingDetail → Prop
  | .running, _ | .waiting, .readline true => l.head? = some t → l = [t]
  | .ready, _ => l.head? = some t → ∀ e, l.getLast? = some e → (k.tcb e).pcb ≠ (k.tcb t).pcb
  | .waiting, .sleep w => SleepAgain (fun u => (k.tcb u).detail.wakeupTime) w t l
  | _, _ => l.head? ≠ some t

section
variable {r r' : Rings} {k k' k'' : Threads} {t : Thread} {state : ThreadState}
variable {detail : Option BlockingDetail} {idx : ListIdx} {d : Option Thread} {frontPushed : Bool}
variable {l pre post : List Thread} {wakeupTime : Thread → BitVec 32} {w : BitVec 32} {fuel : Nat}

/-! ### One list -/

/-- A thread that does not go before itself is put somewhere into the list. -/
theorem place_splits (empty : d = none → l = []) (other : d ≠ some t) :
    ∃ pre post, l = pre ++ post ∧ place l t d frontPushed = pre ++ t :: post := by
  unfold place
  cases d with
  | none => exact ⟨[], [], empty rfl, rfl⟩
  | some x =>
      have ne : x ≠ t := fun same => other (congrArg some same)
      dsimp only
      rw [if_neg ne]
      split_ifs
      · exact ⟨[], l, rfl, rfl⟩
      · exact ⟨l, [], (List.append_nil l).symm, rfl⟩
      · exact ⟨_, _, (List.takeWhile_append_dropWhile).symm, rfl⟩

theorem filter_absent (new : t ∉ l) : l.filter (· ≠ t) = l := by
  refine List.filter_eq_self.mpr fun u mem => ?_
  simpa using fun same : u = t => new (same ▸ mem)

theorem filter_insert (new : t ∉ pre ++ post) :
    (pre ++ t :: post).filter (· ≠ t) = pre ++ post := by
  rw [List.filter_append, List.filter_cons_of_neg (by simp), ← List.filter_append,
    filter_absent new]

theorem count_insert (new : t ∉ pre ++ post) : (pre ++ t :: post).count t = 1 := by
  have none : (pre ++ post).count t = 0 := List.count_eq_zero_of_not_mem new
  rw [List.count_append] at none
  rw [List.count_append, List.count_cons_self]
  omega

theorem filter_unlink (wf : k.WellFormed) (i : ListIdx) :
    (k.unlink t i).filter (· ≠ t) = (k.lists i).filter (· ≠ t) := by
  by_cases own : i = (k.tcb t).listIdx
  · rw [own, Threads.unlink, Function.update_self, (wf.nodup _).erase_eq_filter, List.filter_filter]
    congr 1
    funext u
    by_cases same : u = t <;> simp [same]
  · rw [Threads.unlink_other own]

/-! ### A thread goes before another one, or before itself -/

/-- Everything but the order of the sleepers. -/
theorem moved_keeps_iff (wf : k.WellFormed) (mem : t ∈ k.lists (k.tcb t).listIdx)
    (goes : k.destination t detail state = some (idx, d, frontPushed)) :
    ((k.moved t state detail idx d frontPushed).lists idx).count t = 1 ∧
        (∀ i, ((k.moved t state detail idx d frontPushed).lists i).filter (· ≠ t) =
          (k.lists i).filter (· ≠ t)) ↔
      (d = some t → frontPushed = true ∧ k.lists idx = [t]) := by
  have slot := Rings.stands goes
  have new := wf.not_mem_unlink (t := t)
  have others : ∀ i, i ≠ idx → ((k.moved t state detail idx d frontPushed).lists i).filter (· ≠ t) =
      (k.lists i).filter (· ≠ t) := by
    intro i other
    rw [Threads.moved_lists_other other, filter_unlink wf]
  rw [Threads.moved_lists_self]
  constructor
  · rintro ⟨once, kept⟩ rfl
    have inList := slot.mem t rfl
    have left := kept idx
    rw [Threads.moved_lists_self, place, if_pos rfl] at left
    rw [place, if_pos rfl] at once
    cases frontPushed with
    | false =>
        rw [if_neg (by simp), List.count_eq_zero_of_not_mem (new idx)] at once
        cases once
    | true =>
        refine ⟨rfl, ?_⟩
        have alone : ∀ u ∈ k.lists idx, u = t := by
          intro u hu
          by_contra other
          have still : u ∈ (k.lists idx).filter (· ≠ t) := List.mem_filter.mpr ⟨hu, by simpa using other⟩
          rw [← left] at still
          simp at still
        obtain ⟨h, rest, list⟩ := List.exists_cons_of_ne_nil (List.ne_nil_of_mem inList)
        have nodup := wf.nodup idx
        rw [list] at alone nodup ⊢
        obtain rfl := alone h List.mem_cons_self
        cases rest with
        | nil => rfl
        | cons u rest =>
            obtain rfl := alone u (by simp)
            exact absurd List.mem_cons_self (List.nodup_cons.mp nodup).1
  · intro own
    by_cases self : d = some t
    · obtain ⟨rfl, list⟩ := own self
      subst self
      refine ⟨by simp [place], fun i => ?_⟩
      by_cases target : i = idx
      · rw [target, Threads.moved_lists_self, list]
        simp [place]
      · exact others i target
    · have empty : d = none → k.unlink t idx = [] := by
        intro none
        rw [List.eq_nil_iff_forall_not_mem]
        intro u inList
        have old := Threads.mem_unlink inList
        rw [slot.empty none] at old
        cases old
      obtain ⟨pre, post, split, placed⟩ : ∃ pre post, k.unlink t idx = pre ++ post ∧
          place (k.unlink t idx) t d frontPushed = pre ++ t :: post := place_splits empty self
      have absent : t ∉ pre ++ post := split ▸ new idx
      refine ⟨by rw [placed, count_insert absent], fun i => ?_⟩
      by_cases target : i = idx
      · rw [target, Threads.moved_lists_self, placed, filter_insert absent, ← split,
          ← filter_unlink wf, filter_absent (new idx)]
      · exact others i target

theorem readyDestination_self {pcb : Thread → Nat} (nodup : l.Nodup) (mem : t ∈ l) :
    readyDestination pcb (pcb t) l = some t ↔
      l.head? = some t ∧ ∃ e, l.getLast? = some e ∧ pcb e = pcb t := by
  obtain none | ⟨pre, e, post, rfl, own, behind⟩ := Rings.last_of_process pcb (pcb t) l
  · exact absurd rfl (none t mem)
  have before : t ∉ post := fun late => behind t late rfl
  rw [Rings.readyDestination_last own behind]
  cases post with
  | nil => simp [own]
  | cons x post =>
      have first : (x :: post).head? ≠ some t := fun same => before (by simp_all)
      have last : ∀ z, (x :: post).getLast? = some z → pcb z ≠ pcb t :=
        fun z eq => behind z (List.mem_of_getLast? eq)
      rw [List.head?_cons, Option.some_or]
      constructor
      · intro same
        exact absurd same first
      · rintro ⟨-, z, eq, same⟩
        rw [List.getLast?_append_cons, List.getLast?_cons_cons] at eq
        exact absurd same (last z eq)

/-! ### The order of the sleepers -/

/-- The sleepers, with a new one at its place. -/
theorem inOrder_insert {wakeupTime' : Thread → BitVec 32}
    (sorted : InOrder wakeupTime (pre ++ post)) (early : ∀ u ∈ pre, wakeupTime u ≤ w)
    (late : ∀ u ∈ post, w ≤ wakeupTime u) (own : wakeupTime' t = w)
    (same : ∀ u ∈ pre ++ post, wakeupTime' u = wakeupTime u) :
    InOrder wakeupTime' (pre ++ t :: post) := by
  have before : ∀ u ∈ pre, wakeupTime' u = wakeupTime u := fun u mem => same u (by simp [mem])
  have after : ∀ u ∈ post, wakeupTime' u = wakeupTime u := fun u mem => same u (by simp [mem])
  obtain ⟨first, second, apart⟩ := List.pairwise_append.mp sorted
  rw [InOrder, List.pairwise_append, List.pairwise_cons]
  refine ⟨first.imp_of_mem fun {u v} hu hv le => ?_, ⟨fun v hv => ?_, second.imp_of_mem
    fun {u v} hu hv le => ?_⟩, fun u hu v hv => ?_⟩
  · rwa [before u hu, before v hv]
  · rw [own, after v hv]
    exact late v hv
  · rwa [after u hu, after v hv]
  · rw [before u hu]
    rcases List.mem_cons.mp hv with rfl | hv
    · rw [own]
      exact early u hu
    · rw [after v hv]
      exact apart u hu v hv

theorem find_erase {p : Thread → Bool} (other : l.find? p ≠ some t) :
    (l.erase t).find? p = l.find? p := by
  induction l with
  | nil => rfl
  | cons x l ih =>
      by_cases same : x = t
      · subst same
        rw [List.erase_cons_head]
        cases test : p x with
        | true => exact absurd (List.find?_cons_of_pos test) other
        | false => rw [List.find?_cons_of_neg (by simp [test])]
      · rw [List.erase_cons_tail (by simpa using same)]
        cases test : p x with
        | true => rw [List.find?_cons_of_pos test, List.find?_cons_of_pos test]
        | false =>
            rw [List.find?_cons_of_neg (by simp [test])] at other ⊢
            rw [List.find?_cons_of_neg (by simp [test])]
            exact ih other

theorem sleepDestination_late {h : Thread} (rest : List Thread) (late : ¬ w ≤ wakeupTime h) :
    sleepDestination wakeupTime w (h :: rest) =
      (some ((rest.find? fun u => w ≤ wakeupTime u).getD h), false) := by
  rw [sleepDestination, if_neg late, ← List.find?_not_eq_head?_dropWhile]
  simp only [← decide_not, BitVec.not_lt]

/-- A sleeper that does not go before itself is put into its place, unless it is the head. -/
theorem inOrder_again {wakeupTime' : Thread → BitVec 32} {h : Thread} {rest : List Thread}
    (nodup : (h :: rest).Nodup) (behind : h ≠ t)
    (clear : w ≤ wakeupTime h ∨ rest.find? (fun u => w ≤ wakeupTime u) ≠ some t)
    (sorted : InOrder wakeupTime (h :: rest)) (own : wakeupTime' t = w)
    (same : ∀ u, u ≠ t → wakeupTime' u = wakeupTime u) :
    InOrder wakeupTime' (place ((h :: rest).erase t) t
      (sleepDestination wakeupTime w (h :: rest)).1 (sleepDestination wakeupTime w (h :: rest)).2) := by
  have left : (h :: rest).erase t = h :: rest.erase t := List.erase_cons_tail (by simpa using behind)
  have destination : sleepDestination wakeupTime w (h :: rest) =
      sleepDestination wakeupTime w (h :: rest.erase t) := by
    by_cases late : w ≤ wakeupTime h
    · rw [sleepDestination, sleepDestination, if_pos late, if_pos late]
    · rw [sleepDestination_late rest late, sleepDestination_late _ late,
        find_erase (clear.resolve_left late)]
  have absent : t ∉ (h :: rest).erase t := nodup.not_mem_erase
  have sub : InOrder wakeupTime ((h :: rest).erase t) := sorted.sublist List.erase_sublist
  obtain ⟨pre, post, split, placed, early, late⟩ := place_sleep (w := w) (nodup.erase t) absent sub
  rw [left] at split placed
  rw [destination, left, placed]
  rw [left, split] at sub absent
  exact inOrder_insert sub early late own fun u mem => same u fun eq => absent (eq ▸ mem)

/-- The head of the `SLEEP` list, for a later time to wake up: before the first sleeper that
is not earlier, or at the end if that is the new head. -/
theorem inOrder_head_again {wakeupTime' : Thread → BitVec 32} {rest : List Thread}
    (nodup : (t :: rest).Nodup) (late : ¬ w ≤ wakeupTime t) (next : ∃ u ∈ rest, w ≤ wakeupTime u)
    (sorted : InOrder wakeupTime (t :: rest)) (own : wakeupTime' t = w)
    (same : ∀ u, u ≠ t → wakeupTime' u = wakeupTime u) :
    InOrder wakeupTime' (place rest t (sleepDestination wakeupTime w (t :: rest)).1
        (sleepDestination wakeupTime w (t :: rest)).2) ↔
      ∀ x, rest.head? = some x → w ≤ wakeupTime x → ∀ u ∈ rest, wakeupTime u ≤ w := by
  obtain ⟨absent, nodup⟩ := List.nodup_cons.mp nodup
  have others : ∀ u ∈ rest, wakeupTime' u = wakeupTime u :=
    fun u mem => same u fun eq => absent (eq ▸ mem)
  have tail : InOrder wakeupTime rest := (List.pairwise_cons.mp sorted).2
  cases rest with
  | nil => obtain ⟨u, mem, -⟩ := next; cases mem
  | cons x rest =>
      have ne : x ≠ t := fun eq => absent (eq ▸ List.mem_cons_self)
      rw [sleepDestination_late _ late]
      by_cases first : w ≤ wakeupTime x
      · -- before the new head, which is at the end
        have atEnd : place (x :: rest) t (some x) false = x :: rest ++ [t] := by
          simp [place, ne]
        rw [List.find?_cons_of_pos (by simpa using first), Option.getD_some, atEnd, InOrder,
          List.pairwise_append]
        constructor
        · rintro ⟨-, -, before⟩ y - - u mem
          rw [← own, ← others u mem]
          exact before u mem t (by simp)
        · intro early
          refine ⟨tail.imp_of_mem fun {u v} hu hv le => ?_, List.pairwise_singleton _ t,
            fun u mem v hv => ?_⟩
          · rwa [others u hu, others v hv]
          · rw [List.mem_singleton.mp hv, own, others u mem]
            exact early x rfl first u mem
      · have placed := place_sleep (w := w) nodup absent tail
        obtain ⟨pre, post, split, placed, early, late'⟩ := placed
        have found : ∃ y, rest.find? (fun u => decide (w ≤ wakeupTime u)) = some y := by
          obtain ⟨u, mem, le⟩ := next
          rcases List.mem_cons.mp mem with rfl | mem
          · exact absurd le first
          · refine Option.isSome_iff_exists.mp (List.find?_isSome.mpr ⟨u, mem, by simpa using le⟩)
        obtain ⟨y, found⟩ := found
        rw [sleepDestination_late _ first, found, Option.getD_some] at placed
        rw [List.find?_cons_of_neg (by simpa using first), found, Option.getD_some, placed]
        refine ⟨fun _ z head le => ?_, fun _ => ?_⟩
        · obtain rfl : x = z := by simpa using head
          exact absurd le first
        · rw [split] at tail others
          exact inOrder_insert tail early late' own others

theorem sleepAgain_iff (wakeupTime wakeupTime' : Thread → BitVec 32) (nodup : l.Nodup) (mem : t ∈ l)
    (own : wakeupTime' t = w) (same : ∀ u, u ≠ t → wakeupTime' u = wakeupTime u) :
    (((sleepDestination wakeupTime w l).1 = some t →
        (sleepDestination wakeupTime w l).2 = true ∧ l = [t]) ∧
      (InOrder wakeupTime l → InOrder wakeupTime' (place (l.erase t) t
        (sleepDestination wakeupTime w l).1 (sleepDestination wakeupTime w l).2))) ↔
      SleepAgain wakeupTime w t l := by
  cases l with
  | nil => cases mem
  | cons h rest =>
      rw [SleepAgain]
      by_cases head : h = t
      · subst head
        rw [if_pos rfl, List.erase_cons_head]
        by_cases first : w ≤ wakeupTime h
        · rw [if_pos first, sleepDestination, if_pos first]
          constructor
          · rintro ⟨alone, -⟩
            simpa using alone rfl
          · rintro rfl
            simp [place, InOrder]
        · rw [if_neg first]
          have absent := (List.nodup_cons.mp nodup).1
          have next : ((sleepDestination wakeupTime w (h :: rest)).1 = some h →
              (sleepDestination wakeupTime w (h :: rest)).2 = true ∧ h :: rest = [h]) ↔
                ∃ u ∈ rest, w ≤ wakeupTime u := by
            rw [sleepDestination_late rest first]
            cases found : rest.find? fun u => w ≤ wakeupTime u with
            | none =>
                have none := List.find?_eq_none.mp found
                simp at none
                simpa using none
            | some y =>
                have mem := List.mem_of_find?_eq_some found
                have ne : y ≠ h := fun eq => absent (eq ▸ mem)
                have le := List.find?_some found
                simp only [Option.getD_some, Option.some.injEq, ne, false_imp_iff, true_iff]
                exact ⟨y, mem, by simpa using le⟩
          rw [next]
          refine and_congr_right fun next => forall_congr' fun sorted => ?_
          exact inOrder_head_again nodup first next sorted own same
      · rw [if_neg head]
        have clear : ((sleepDestination wakeupTime w (h :: rest)).1 = some t →
              (sleepDestination wakeupTime w (h :: rest)).2 = true ∧ h :: rest = [t]) ↔
            w ≤ wakeupTime h ∨ rest.find? (fun u => w ≤ wakeupTime u) ≠ some t := by
          by_cases first : w ≤ wakeupTime h
          · rw [sleepDestination, if_pos first]
            simp [head, first]
          · rw [sleepDestination_late rest first]
            cases found : rest.find? fun u => w ≤ wakeupTime u with
            | none => simp [head]
            | some y => simp [first]
        rw [clear]
        exact ⟨fun both => both.1, fun c =>
          ⟨c, fun sorted => inOrder_again nodup head c sorted own same⟩⟩

/-! ### The whole function -/

/-- The order of the sleepers after a move to another list than theirs. -/
theorem sorted_moved (wf : k.WellFormed) (target : idx ≠ .reason .sleep)
    (sorted : InOrder (fun u => (k.tcb u).detail.wakeupTime) k.sleepers) :
    InOrder (fun u => ((k.moved t state detail idx d frontPushed).tcb u).detail.wakeupTime)
      (k.moved t state detail idx d frontPushed).sleepers := by
  have left : (k.moved t state detail idx d frontPushed).sleepers = k.unlink t (.reason .sleep) :=
    Threads.moved_lists_other target.symm
  have sub : (k.unlink t (.reason .sleep)).Sublist k.sleepers := by
    by_cases own : ListIdx.reason .sleep = (k.tcb t).listIdx
    · rw [Threads.unlink, own, Function.update_self, Threads.sleepers, own]
      exact List.erase_sublist
    · rw [Threads.unlink_other own]
      exact .refl _
  have absent := wf.not_mem_unlink (t := t) (.reason .sleep)
  have others : ∀ u ∈ k.unlink t (.reason .sleep),
      (k.moved t state detail idx d frontPushed).tcb u = k.tcb u :=
    fun u mem => Threads.moved_tcb_other (by rintro rfl; exact absent mem)
  rw [left]
  refine (sorted.sublist sub).imp_of_mem fun {u v} hu hv le => ?_
  dsimp only
  rw [others u hu, others v hv]
  exact le

/-- The times to wake up after a move to the `SLEEP` list. -/
theorem wakeupTime_moved (u : Thread) :
    ((k.moved t .waiting (some (.sleep w)) idx d frontPushed).tcb u).detail.wakeupTime =
      if u = t then w else (k.tcb u).detail.wakeupTime := by
  by_cases self : u = t
  · subst self
    simp [Threads.moved_tcb_self, BlockingDetail.wakeupTime]
  · rw [Threads.moved_tcb_other self, if_neg self]

/-- The order of the sleepers after a thread of another list has come to them. -/
theorem sorted_sleep (wf : k.WellFormed) (other : ListIdx.reason .sleep ≠ (k.tcb t).listIdx)
    (goes : k.destination t (some (.sleep w)) .waiting = some (idx, d, frontPushed))
    (sorted : InOrder (fun u => (k.tcb u).detail.wakeupTime) k.sleepers) :
    InOrder
      (fun u => ((k.moved t .waiting (some (.sleep w)) idx d frontPushed).tcb u).detail.wakeupTime)
      (k.moved t .waiting (some (.sleep w)) idx d frontPushed).sleepers := by
  have new : t ∉ k.sleepers := fun mem => other (wf.listed _ t mem).symm
  rw [Threads.destination, Option.map_some, Option.some.injEq, Prod.mk.injEq] at goes
  obtain ⟨rfl, goes⟩ := goes
  dsimp only at goes
  obtain ⟨pre, post, split, placed, early, late⟩ := place_sleep (w := w) (wf.nodup _) new sorted
  change k.sleepers = _ at split
  rw [goes] at placed
  rw [Threads.sleepers, BlockingDetail.reason, Threads.moved_lists_self, Threads.unlink_other other,
    placed]
  rw [split] at sorted new
  refine inOrder_insert sorted early late ?_ fun u mem => ?_
  · rw [wakeupTime_moved, if_pos rfl]
  · rw [wakeupTime_moved, if_neg (by rintro rfl; exact new mem)]

/-- Who is put into the `SLEEP` list. -/
theorem goes_to_sleep (goes : k.destination t detail state = some (.reason .sleep, d, frontPushed)) :
    ∃ w, state = .waiting ∧ detail = some (.sleep w) := by
  cases state with
  | waiting =>
      cases detail with
      | none => cases goes
      | some detail =>
          rw [Threads.destination, Option.map_some, Option.some.injEq, Prod.mk.injEq] at goes
          cases detail with
          | sleep w => exact ⟨w, rfl, rfl⟩
          | _ => cases goes.1
  | _ => cases goes

/-- A thread that is put into its list again before the head. -/
theorem again_head (l : List Thread) (frontPushed : Bool) :
    (l.head? = some t → frontPushed = true ∧ l = [t]) ↔
      if frontPushed then l.head? = some t → l = [t] else l.head? ≠ some t := by
  cases frontPushed <;> simp

/-- `alter_state` does its task except where a thread is put into its list again at a place
of its own. -/
theorem moves_iff (wf : k.WellFormed) (mem : t ∈ k.lists (k.tcb t).listIdx)
    (goes : k.destination t detail state = some (idx, d, frontPushed)) :
    k.Moves (k.moved t state detail idx d frontPushed) t idx ↔
      (idx = (k.tcb t).listIdx →
        k.Again t (k.lists idx) state (detail.getD (k.tcb t).detail)) := by
  have keeps := moved_keeps_iff wf mem goes
  have elsewhere : ∀ i, i ≠ idx → t ∉ (k.moved t state detail idx d frontPushed).lists i := by
    intro i other
    rw [Threads.moved_lists_other other]
    exact wf.not_mem_unlink i
  have split : k.Moves (k.moved t state detail idx d frontPushed) t idx ↔
      (d = some t → frontPushed = true ∧ k.lists idx = [t]) ∧
      (InOrder (fun u => (k.tcb u).detail.wakeupTime) k.sleepers →
        InOrder (fun u => ((k.moved t state detail idx d frontPushed).tcb u).detail.wakeupTime)
          (k.moved t state detail idx d frontPushed).sleepers) := by
    rw [← keeps]
    exact ⟨fun m => ⟨⟨m.once, m.others⟩, m.sorted⟩, fun ⟨⟨once, others⟩, sorted⟩ =>
      ⟨once, elsewhere, others, sorted⟩⟩
  rw [split]
  by_cases own : idx = (k.tcb t).listIdx
  · rw [← own] at mem
    rw [imp_iff_right own]
    cases state with
    | new => cases goes
    | ready =>
        cases goes
        rw [and_iff_left (sorted_moved wf (by simp)),
          readyDestination_self (wf.nodup _) mem]
        simp [Threads.Again]
    | running =>
        cases goes
        rw [and_iff_left (sorted_moved wf (by simp)), again_head, if_pos rfl]
        rfl
    | terminated =>
        cases goes
        rw [and_iff_left (sorted_moved wf (by simp)), again_head, if_neg (by simp)]
        rfl
    | waiting =>
        cases detail with
        | none => cases goes
        | some detail =>
            cases detail with
            | sleep w =>
                rw [Threads.destination, Option.map_some, Option.some.injEq, Prod.mk.injEq] at goes
                obtain ⟨rfl, goes⟩ := goes
                dsimp only at goes
                have again := sleepAgain_iff (w := w) (fun u => (k.tcb u).detail.wakeupTime)
                  (fun u => ((k.moved t .waiting (some (.sleep w)) (.reason .sleep) d
                    frontPushed).tcb u).detail.wakeupTime) (wf.nodup (.reason .sleep)) mem
                  (by rw [wakeupTime_moved, if_pos rfl])
                  (fun u other => by rw [wakeupTime_moved, if_neg other])
                have left : k.unlink t (.reason .sleep) = (k.lists (.reason .sleep)).erase t := by
                  rw [Threads.unlink, ← own, BlockingDetail.reason, Function.update_self]
                have placed : (k.moved t .waiting (some (.sleep w)) (.reason .sleep) d
                    frontPushed).sleepers = place (k.unlink t (.reason .sleep)) t d frontPushed :=
                  Threads.moved_lists_self
                rw [goes, ← left, ← placed] at again
                exact again
            | readline first =>
                cases goes
                rw [and_iff_left (sorted_moved wf (by simp [BlockingDetail.reason]))]
                refine (again_head (k.lists (.reason .readline)) frontPushed).trans ?_
                cases frontPushed <;> rfl
            | deschedule =>
                cases goes
                rw [and_iff_left (sorted_moved wf (by simp [BlockingDetail.reason]))]
                exact again_head (k.lists (.reason .deschedule)) false
            | vanishWait =>
                cases goes
                rw [and_iff_left (sorted_moved wf (by simp [BlockingDetail.reason]))]
                exact again_head (k.lists (.reason .vanishWait)) false
  · have apart : d ≠ some t := fun self => own (wf.listed idx t ((Rings.stands goes).mem t self)).symm
    refine iff_of_true ⟨fun self => absurd self apart, fun sorted => ?_⟩ fun same => absurd same own
    by_cases target : idx = .reason .sleep
    · subst target
      obtain ⟨w, rfl, rfl⟩ := goes_to_sleep goes
      exact sorted_sleep wf own goes sorted
    · exact sorted_moved wf target sorted

/-- Links are the lists of one family only. -/
theorem Rings.Shows.unique (shows : r.Shows k) (shows' : r.Shows k') : k = k' := by
  have tcb : k.tcb = k'.tcb := shows.tcb.symm.trans shows'.tcb
  have lists : k.lists = k'.lists := by
    funext i
    have head := (shows.head i).symm.trans (shows'.head i)
    have ring := shows.ring i
    have ring' := shows'.ring i
    cases list : k.lists i with
    | nil =>
        rw [list] at head
        exact (List.head?_eq_none_iff.mp head.symm).symm
    | cons h rest =>
        rw [list] at head ring
        obtain ⟨rest', list'⟩ := List.head?_eq_some_iff.mp head.symm
        rw [list'] at ring' ⊢
        rw [← ring.walk (n := rest.length + rest'.length + 1) (by omega),
          ring'.walk (by omega)]
  cases k
  cases k'
  cases tcb
  cases lists
  rfl

theorem alterState_moves_iff (shows : r.Shows k) (wf : k.WellFormed)
    (enough : ∀ i, (k.lists i).length ≤ fuel)
    (returns : r.alterState fuel t state detail = some r') :
    (∃ k', r'.Shows k' ∧ k.Moves k' t (targetIdx state (detail.getD (k.tcb t).detail))) ↔
      (targetIdx state (detail.getD (k.tcb t).detail) = (k.tcb t).listIdx →
        k.Again t (k.lists (k.tcb t).listIdx) state (detail.getD (k.tcb t).detail)) := by
  have refined : Option.Rel Rings.Shows (r.alterState fuel t state detail)
      (k.alterState t state detail) := shows.alterState wf enough
  rw [returns] at refined
  cases run : k.alterState t state detail with
  | none =>
      rw [run] at refined
      cases refined
  | some k' =>
      rw [run] at refined
      have shows' : r'.Shows k' := by
        cases refined with
        | some shown => exact shown
      rw [Threads.alterState] at run
      split at run
      · cases run
      rename_i stays
      rw [not_or, not_not] at stays
      rw [Option.map_eq_some_iff] at run
      obtain ⟨⟨idx, d, frontPushed⟩, goes, moved⟩ := run
      have target : idx = targetIdx state (detail.getD (k.tcb t).detail) :=
        Threads.destination_idx goes
      have unique : (∃ k'', r'.Shows k'' ∧ k.Moves k'' t idx) ↔ k.Moves k' t idx := by
        constructor
        · rintro ⟨k'', shown, moves⟩
          exact shows'.unique shown ▸ moves
        · exact fun moves => ⟨k', shows', moves⟩
      rw [← target, unique, ← moved]
      refine (moves_iff wf stays.2 goes).trans (forall_congr' fun own => ?_)
      rw [own]

end

/-- One thread alone. -/
def lone (state : ThreadState) : Rings where
  tcb _ := ⟨0, 0, state, .deschedule⟩
  threadLists i := if i = .state state then some 0 else none
  links := ⟨id, id⟩

def loneThread (state : ThreadState) : Threads where
  tcb _ := ⟨0, 0, state, .deschedule⟩
  lists i := if i = .state state then [0] else []

theorem lone_shows (state : ThreadState) : (lone state).Shows (loneThread state) := by
  refine ⟨rfl, fun i => ?_, fun i => ?_⟩
  · by_cases own : i = .state state
    · simp [loneThread, lone, own, Links.Ring, Links.Joined]
    · simp [loneThread, own, Links.Ring]
  · by_cases own : i = .state state <;> simp [loneThread, lone, own]

theorem lone_wellFormed {state : ThreadState} (runs : state ≠ .waiting) :
    (loneThread state).WellFormed := by
  refine ⟨fun i => ?_, fun i t mem => ?_⟩
  · by_cases own : i = .state state <;> simp [loneThread, own]
  · by_cases own : i = .state state
    · simp [loneThread, Tcb.listIdx, runs, own]
    · simp [loneThread, own] at mem

/-- Threads 0, 1 and 2 have terminated, and thread 3 runs. -/
def fourThreads : Threads where
  tcb t := ⟨0, t, if t < 3 then .terminated else .running, .deschedule⟩
  lists i := if i = .state .terminated then [0, 1, 2] else if i = .state .running then [3] else []

def fourRings : Rings where
  tcb := fourThreads.tcb
  threadLists i := (fourThreads.lists i).head?
  links := ⟨fun t => if t < 2 then t + 1 else if t = 2 then 0 else t,
    fun t => if t = 0 then 2 else if t ≤ 2 then t - 1 else t⟩

theorem fourRings_shows : fourRings.Shows fourThreads := by
  refine ⟨rfl, fun i => ?_, fun _ => rfl⟩
  rw [fourThreads]
  dsimp only
  split_ifs
  · simp [Links.Ring, Links.Joined, fourRings]
  · simp [Links.Ring, Links.Joined, fourRings]
  · trivial

theorem fourThreads_wellFormed : fourThreads.WellFormed := by
  refine ⟨fun i => ?_, fun i t mem => ?_⟩
  · rw [fourThreads]
    dsimp only
    split_ifs <;> simp
  · rw [fourThreads] at mem
    dsimp only at mem
    split_ifs at mem with ended runs
    · have lt : t < 3 := (by decide : ∀ u ∈ [0, 1, 2], u < 3) t mem
      simp [fourThreads, Tcb.listIdx, lt, ended]
    · obtain rfl := List.mem_singleton.mp mem
      simp [fourThreads, Tcb.listIdx, runs]
    · cases mem

theorem fourThreads_length (i : ListIdx) : (fourThreads.lists i).length ≤ 3 := by
  rw [fourThreads]
  dsimp only
  split_ifs <;> simp

/-- A thread that has terminated, but not as the first one, is terminated again: it goes to the
end of the list. -/
theorem terminated_again : ∃ r', fourRings.alterState 3 1 .terminated none = some r' ∧
    (∃ k', r'.Shows k' ∧ fourThreads.Moves k' 1 (.state .terminated)) ∧
    r'.nodes 3 (.state .terminated) = [0, 2, 1] := by
  have returns : fourRings.alterState 3 1 .terminated none =
      some (fourRings.moved 1 .terminated none (.state .terminated) (some 0) false) := rfl
  refine ⟨_, returns, ?_, by decide⟩
  refine (alterState_moves_iff fourRings_shows fourThreads_wellFormed fourThreads_length returns).mpr
    fun _ => ?_
  change (fourThreads.lists (.state .terminated)).head? ≠ some 1
  decide

/-- The only thread that has terminated is terminated again, as by `handle_task_vanish`: it is
in no list any more. -/
theorem lone_lost : (lone .terminated).Shows (loneThread .terminated) ∧
    (loneThread .terminated).WellFormed ∧
    ∃ r', (lone .terminated).alterState 1 0 .terminated none = some r' ∧
      ¬ ∃ k', r'.Shows k' ∧ (loneThread .terminated).Moves k' 0 (.state .terminated) := by
  refine ⟨lone_shows _, lone_wellFormed (by decide), _, rfl, ?_⟩
  rintro ⟨k', shows, moves⟩
  have head := shows.head (.state .terminated)
  have empty : k'.lists (.state .terminated) = [] := List.head?_eq_none_iff.mp head.symm
  have once := moves.once
  rw [empty] at once
  cases once

end OsKernel.Sched
