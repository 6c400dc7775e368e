/-
`handle_sleep` (`kern/system_call.c`) and the sleepers that `handle_timer` wakes.

Times to wake up are sums modulo 2^32, and they are compared as they are. As long as no
sum and no tick goes past the end, the head of the `SLEEP` list is the sleeper with the
fewest ticks left, and no sleeper is woken before its time. `Watch` counts the ticks
without end beside the kernel.
-/

import OsKernel.Lib.Run
import OsKernel.Sched.Lists
import Mathlib.Algebra.Group.Nat.Defs

namespace OsKernel.Sched

open Run

/-- `handle_sleep`; `next` is what `find_next_thread` has found. -/
def Clock.handleSleep (c : Clock) (next : Thread) (ticks : BitVec 32) : Clock :=
  if ticks.toInt ≤ 0 then c
  else ⟨c.switchContext next .waiting (some (.sleep (c.tickCount + ticks))), c.tickCount⟩

/-! ### Runs -/

inductive Event where
  | timer
  | sleep (next : Thread) (ticks : BitVec 32)
  /-- Whatever else than sleep the kernel calls `alter_state` for. -/
  | alter (t : Thread) (state : ThreadState) (detail : Option BlockingDetail)
  /-- A round robin of `yield`. -/
  | rotate

/-- The kernel, the ticks since it was started, and when each sleeper is due. -/
structure Watch where
  clock : Clock
  elapsed : Nat
  due : Thread → Nat

/-- The threads in the `SLEEP` list. -/
def Threads.sleepers (k : Threads) : List Thread := k.lists (.reason .sleep)

namespace Watch

def step (s : Watch) : Event → Watch
  | .timer => { s with clock := s.clock.handleTimer, elapsed := s.elapsed + 1 }
  | .sleep next ticks =>
      { s with
        clock := s.clock.handleSleep next ticks
        due := match s.clock.lists (.state .running) with
          | [] => s.due
          | t :: _ => if ticks.toInt ≤ 0 then s.due
              else Function.update s.due t (s.elapsed + ticks.toNat) }
  | .alter t state detail =>
      if detail.map BlockingDetail.reason = some .sleep then s
      else { s with clock := ⟨s.clock.alter t state detail, s.clock.tickCount⟩ }
  | .rotate => { s with clock := ⟨s.clock.roundRobin.1, s.clock.tickCount⟩ }

/-- A timer interrupt takes no sleeper out of the `SLEEP` list before it is due, nor
before a sleeper that is due earlier. -/
def Punctual (s : Watch) : Event → Prop
  | .timer => ∀ t ∈ s.clock.sleepers, t ∉ s.clock.handleTimer.sleepers →
      s.due t ≤ s.elapsed + 1 ∧ ∀ u ∈ s.clock.sleepers, s.due t ≤ s.due u
  | _ => True

/-- No tick goes past the end of `tick_count` while somebody sleeps, and no time to wake up
lies there. -/
def Unwrapped (s : Watch) : Event → Prop
  | .timer => s.clock.sleepers = [] ∨ s.clock.tickCount.toNat + 1 < 2 ^ 32
  | .sleep _ ticks => ticks.toInt ≤ 0 ∨ s.clock.tickCount.toNat + ticks.toNat < 2 ^ 32
  | _ => True

end Watch

/-! ### The list of sleepers -/

/-- The sleepers stand in the order of their times to wake up, which are as far ahead of
`now` as they are due. -/
structure Timely (k : Threads) (now elapsed : Nat) (due : Thread → Nat) : Prop where
  wellFormed : k.WellFormed
  sorted : k.sleepers.Pairwise fun t u => (k.tcb t).detail.wakeupTime ≤ (k.tcb u).detail.wakeupTime
  ahead : ∀ t ∈ k.sleepers, due t + now = (k.tcb t).detail.wakeupTime.toNat + elapsed

section
variable {k : Threads} {now elapsed : Nat} {due : Thread → Nat} {t : Thread} {state : ThreadState}
variable {detail : Option BlockingDetail}

/-- The sleepers after a move of a thread that is not to sleep. -/
theorem sleepers_alter (wf : k.WellFormed) (t : Thread) (state : ThreadState)
    (awake : detail.map BlockingDetail.reason ≠ some .sleep) :
    ((k.alter t state detail).sleepers = k.sleepers ∨
        (k.alter t state detail).sleepers = k.sleepers.erase t) ∧
      ∀ u ∈ (k.alter t state detail).sleepers, (k.alter t state detail).tcb u = k.tcb u := by
  obtain same | ⟨idx, d, frontPushed, old, mem, goes⟩ := k.alter_cases t state detail
  · rw [same]
    exact ⟨.inl rfl, fun _ _ => rfl⟩
  have target : idx ≠ .reason .sleep := by
    rw [Threads.destination_idx goes]
    cases state with
    | waiting =>
        cases detail with
        | none => cases goes
        | some detail =>
            rintro asleep
            simp only [if_true, Option.getD_some, ListIdx.reason.injEq] at asleep
            exact awake (congrArg some asleep)
    | _ => simp
  rw [Threads.alterState_eq old mem goes, Threads.sleepers, Threads.moved_lists_other target.symm]
  refine ⟨?_, fun u inList => Threads.moved_tcb_other fun self => ?_⟩
  · unfold Threads.unlink
    by_cases own : ListIdx.reason .sleep = (k.tcb t).listIdx
    · rw [← own, Function.update_self]
      exact .inr rfl
    · rw [Function.update_of_ne own]
      exact .inl rfl
  · subst self
    exact wf.not_mem_unlink _ inList

theorem Timely.sublist {k' : Threads} (timely : Timely k now elapsed due) (wf : k'.WellFormed)
    (sub : List.Sublist k'.sleepers k.sleepers) (same : ∀ u ∈ k'.sleepers, k'.tcb u = k.tcb u) :
    Timely k' now elapsed due := by
  refine ⟨wf, ?_, fun t mem => ?_⟩
  · refine (timely.sorted.sublist sub).imp_of_mem fun {t u} first next le => ?_
    rw [same t first, same u next]
    exact le
  · rw [same t mem]
    exact timely.ahead t (sub.subset mem)

theorem Timely.alter (timely : Timely k now elapsed due) (t : Thread) (state : ThreadState)
    (awake : detail.map BlockingDetail.reason ≠ some .sleep) :
    Timely (k.alter t state detail) now elapsed due :=
  have ⟨left, same⟩ := sleepers_alter timely.wellFormed _ _ awake
  have sub : List.Sublist (k.alter t state detail).sleepers k.sleepers :=
    left.elim (fun all => all ▸ .refl _) fun less => less ▸ List.erase_sublist
  timely.sublist (timely.wellFormed.alter t state detail) sub same

/-- A sleeper is put between those that wake up before it and the others. -/
theorem place_sleep {wakeupTime : Thread → BitVec 32} {w : BitVec 32} {l : List Thread}
    (nodup : l.Nodup) (new : t ∉ l) (sorted : l.Pairwise fun t u => wakeupTime t ≤ wakeupTime u) :
    ∃ pre post, l = pre ++ post ∧
      place l t (sleepDestination wakeupTime w l).1 (sleepDestination wakeupTime w l).2 =
        pre ++ t :: post ∧
      (∀ u ∈ pre, wakeupTime u ≤ w) ∧ ∀ u ∈ post, w ≤ wakeupTime u := by
  cases l with
  | nil => exact ⟨[], [], rfl, rfl, by simp, by simp⟩
  | cons h rest =>
      have ht : h ≠ t := fun same => new (same ▸ List.mem_cons_self)
      have after := List.pairwise_cons.mp sorted
      rw [sleepDestination]
      by_cases first : w ≤ wakeupTime h
      · rw [if_pos first]
        refine ⟨[], h :: rest, rfl, by simp [place, ht], by simp, fun u mem => ?_⟩
        rcases List.mem_cons.mp mem with rfl | mem
        · exact first
        · exact BitVec.le_trans first (after.1 u mem)
      rw [if_neg first]
      have whole := List.takeWhile_append_dropWhile (p := fun u => decide (wakeupTime u < w)) (l := rest)
      have early : ∀ u ∈ h :: rest.takeWhile (fun u => decide (wakeupTime u < w)), wakeupTime u ≤ w := by
        intro u mem
        rcases List.mem_cons.mp mem with rfl | mem
        · exact BitVec.le_of_lt (BitVec.not_le.mp first)
        · have lt := List.mem_takeWhile_imp (p := fun u => decide (wakeupTime u < w)) mem
          exact BitVec.le_of_lt (of_decide_eq_true lt)
      generalize rest.takeWhile (fun u => decide (wakeupTime u < w)) = front at whole early
      cases late : rest.dropWhile fun u => wakeupTime u < w with
      | nil =>
          rw [late, List.append_nil] at whole
          subst whole
          exact ⟨h :: front, [], (List.append_nil _).symm, place_head (by simp) new, early, by simp⟩
      | cons d ds =>
          have notBefore := List.head?_dropWhile_not (fun u => decide (wakeupTime u < w)) rest
          rw [late] at whole notBefore
          subst whole
          refine ⟨h :: front, d :: ds, rfl, ?_, early, fun u mem => ?_⟩
          · exact place_before (show (h :: front ++ d :: ds).Nodup from nodup) (by simp) fun same => new (by simp [same])
          · have start : w ≤ wakeupTime d := by simpa using notBefore
            have tail := (List.pairwise_append.mp after.2).2.1
            rcases List.mem_cons.mp mem with rfl | mem
            · exact start
            · exact BitVec.le_trans start ((List.pairwise_cons.mp tail).1 u mem)

/-- Another thread than the one that is moved goes on sleeping. -/
theorem mem_sleepers_alter {u : Thread} (wf : k.WellFormed)
    (awake : detail.map BlockingDetail.reason ≠ some .sleep) (mem : u ∈ k.sleepers) (other : u ≠ t) :
    u ∈ (k.alter t state detail).sleepers := by
  obtain all | less := (sleepers_alter wf t state awake).1
  · rw [all]
    exact mem
  · rw [less]
    exact (List.mem_erase_of_ne other).mpr mem

theorem not_sleeping {i : ListIdx} (wf : k.WellFormed) (mem : t ∈ k.lists i)
    (other : i ≠ .reason .sleep) : t ∉ k.sleepers := fun asleep => by
  have one := wf.listed _ t asleep
  rw [wf.listed i t mem] at one
  exact other one

/-- A running thread goes to sleep. -/
theorem Timely.sleep {w : BitVec 32} {ticks : Nat} (timely : Timely k now elapsed due)
    (running : t ∈ k.lists (.state .running)) (time : w.toNat = now + ticks) :
    Timely (k.alter t .waiting (some (.sleep w))) now elapsed
      (Function.update due t (elapsed + ticks)) := by
  have wf := timely.wellFormed
  have new := not_sleeping wf running (by decide)
  obtain ⟨pre, post, whole, placed, early, late⟩ := place_sleep (w := w) (wf.nodup _) new timely.sorted
  have whole : k.sleepers = pre ++ post := whole
  have own := wf.listed _ t running
  have detail : ((k.alter t .waiting (some (.sleep w))).tcb t).detail = .sleep w := by
    rw [Threads.alterState_eq (fun no => by rw [Tcb.listIdx, no] at own; cases own)
      (by rw [own]; exact running) rfl, Threads.moved_tcb_self]
    rfl
  have sleepers : (k.alter t .waiting (some (.sleep w))).sleepers = pre ++ t :: post := by
    rw [← placed]
    exact (wf.alter_lists running (by decide) (by decide) rfl).1
  have others : ∀ u ∈ pre ++ post, u ≠ t := fun u mem same => new (by rw [whole, ← same]; exact mem)
  have tcb : ∀ u ∈ pre ++ post, (k.alter t .waiting (some (.sleep w))).tcb u = k.tcb u :=
    fun u mem => Threads.alter_tcb_other (others u mem)
  have sorted := timely.sorted
  have ahead := timely.ahead
  rw [whole] at sorted ahead
  refine ⟨wf.alter t _ _, ?_, fun u mem => ?_⟩
  · have kept := sorted.imp_of_mem (S := fun x y =>
        ((k.alter t .waiting (some (.sleep w))).tcb x).detail.wakeupTime ≤
          ((k.alter t .waiting (some (.sleep w))).tcb y).detail.wakeupTime) fun {x y} first next le => by
      rw [tcb x first, tcb y next]
      exact le
    obtain ⟨front, back, across⟩ := List.pairwise_append.mp kept
    rw [sleepers]
    refine List.pairwise_append.mpr ⟨front, List.pairwise_cons.mpr ⟨fun y mem => ?_, back⟩, ?_⟩
    · rw [detail, tcb y (by simp [mem])]
      exact late y mem
    · intro x first y next
      rcases List.mem_cons.mp next with rfl | next
      · rw [detail, tcb x (by simp [first])]
        exact early x first
      · exact across x first y next
  · rw [sleepers] at mem
    by_cases self : u = t
    · subst self
      rw [Function.update_self, detail, BlockingDetail.wakeupTime, time]
      omega
    · have old : u ∈ pre ++ post := by
        simp only [List.mem_append, List.mem_cons] at mem ⊢
        tauto
      rw [Function.update_of_ne self, tcb u old]
      exact ahead u old

theorem Timely.tick (timely : Timely k now elapsed due) : Timely k (now + 1) (elapsed + 1) due :=
  ⟨timely.wellFormed, timely.sorted, fun t mem => by have := timely.ahead t mem; omega⟩

theorem Timely.empty (wf : k.WellFormed) (empty : k.sleepers = []) (now elapsed : Nat)
    (due : Thread → Nat) : Timely k now elapsed due :=
  ⟨wf, by rw [empty]; exact .nil, fun t mem => by rw [empty] at mem; cases mem⟩

theorem Timely.switch (timely : Timely k now elapsed due) (target : Thread) (state : ThreadState) :
    Timely (k.switchContext target state none) now elapsed due := by
  rw [Threads.switchContext]
  split
  · exact timely
  · split
    · exact timely
    · exact (timely.alter _ state (by simp)).alter target .running (by simp)

/-- Whom `switch_context` takes out of the `SLEEP` list. -/
theorem leaves_switch {u : Thread} (wf : k.WellFormed) {target : Thread} (mem : u ∈ k.sleepers)
    (left : u ∉ (k.switchContext target .ready none).sleepers) : u = target := by
  by_contra other
  rw [Threads.switchContext, if_neg (by simp)] at left
  cases running : k.lists (.state .running) with
  | nil =>
      rw [running] at left
      exact left mem
  | cons r rest =>
      rw [running] at left
      have awake : r ∉ k.sleepers := not_sleeping wf (running ▸ List.mem_cons_self) (by decide)
      have first : u ∈ (k.alter r .ready none).sleepers :=
        mem_sleepers_alter wf (by simp) mem fun same => awake (same ▸ mem)
      exact left (mem_sleepers_alter (wf.alter r .ready none) (by simp) first other)

end

/-! ### Runs of sleepers -/

/-- What holds of the kernel and the times its sleepers are due. -/
def Watch.Timely (s : Watch) : Prop :=
  Sched.Timely s.clock.toThreads s.clock.tickCount.toNat s.elapsed s.due

namespace Watch

variable {s : Watch}

theorem Timely.roundRobin (timely : s.Timely) :
    Sched.Timely s.clock.roundRobin.1 s.clock.tickCount.toNat s.elapsed s.due :=
  Sched.Timely.sublist timely timely.wellFormed.roundRobin (.refl _) fun _ _ => rfl

theorem sleeper_eq {c : Clock} {now : BitVec 32} {t : Thread} (wakes : c.sleeper now = some t) :
    (∃ rest, c.sleepers = t :: rest) ∧ (c.tcb t).detail.wakeupTime ≤ now := by
  rw [Clock.sleeper] at wakes
  cases asleep : c.lists (.reason .sleep) with
  | nil =>
      rw [asleep] at wakes
      cases wakes
  | cons u rest =>
      rw [asleep] at wakes
      simp only [Option.ite_none_right_eq_some, Option.some.injEq] at wakes
      obtain ⟨early, rfl⟩ := wakes
      exact ⟨⟨rest, asleep⟩, early⟩

/-- A tick that stays within `tick_count`, or that nobody sleeps at. -/
theorem Timely.timer (timely : s.Timely) (unwrapped : s.Unwrapped .timer) :
    (s.step .timer).Timely ∧ s.Punctual .timer := by
  have wf := timely.wellFormed
  have shifted : Sched.Timely s.clock.toThreads (s.clock.tickCount + 1).toNat (s.elapsed + 1) s.due := by
    rcases unwrapped with none | fits
    · exact .empty wf none _ _ _
    · have next : (s.clock.tickCount + 1).toNat = s.clock.tickCount.toNat + 1 := by
        rw [BitVec.toNat_add]
        exact Nat.mod_eq_of_lt fits
      rw [next]
      exact timely.tick
  rw [Watch.Timely, Watch.step, Punctual, Clock.handleTimer]
  dsimp only
  cases wakes : s.clock.sleeper (s.clock.tickCount + 1) with
  | some t =>
      refine ⟨shifted.switch t .ready, fun u mem left => ?_⟩
      obtain rfl : u = t := leaves_switch wf mem left
      obtain ⟨⟨rest, first⟩, early⟩ := sleeper_eq wakes
      have own := shifted.ahead u mem
      have time : (s.clock.tcb u).detail.wakeupTime.toNat ≤ (s.clock.tickCount + 1).toNat := early
      refine ⟨by omega, fun v asleep => ?_⟩
      have order : (s.clock.tcb u).detail.wakeupTime.toNat ≤ (s.clock.tcb v).detail.wakeupTime.toNat := by
        have sorted := shifted.sorted
        rw [first] at sorted asleep
        rcases List.mem_cons.mp asleep with rfl | asleep
        · exact Nat.le_refl _
        · exact (List.pairwise_cons.mp sorted).1 v asleep
      have other := shifted.ahead v asleep
      omega
  | none =>
      have turned : Sched.Timely s.clock.roundRobin.1 (s.clock.tickCount + 1).toNat (s.elapsed + 1)
          s.due := shifted.sublist wf.roundRobin (.refl _) fun _ _ => rfl
      cases target : s.clock.roundRobin.2 with
      | none =>
          rw [show s.clock.roundRobin = (s.clock.roundRobin.1, none) from Prod.ext rfl target]
          exact ⟨shifted, fun u mem left => absurd mem left⟩
      | some t =>
          rw [show s.clock.roundRobin = (s.clock.roundRobin.1, some t) from Prod.ext rfl target]
          refine ⟨turned.switch t .ready, fun u mem left => ?_⟩
          obtain rfl : u = t := leaves_switch turned.wellFormed (k := s.clock.roundRobin.1) mem left
          have ready : u ∈ s.clock.lists (.state .ready) := List.mem_of_mem_head? target
          exact absurd mem (not_sleeping wf ready (by decide))

theorem Timely.step (timely : s.Timely) (e : Event) (unwrapped : s.Unwrapped e) :
    (s.step e).Timely ∧ s.Punctual e := by
  cases e with
  | timer => exact timely.timer unwrapped
  | sleep next ticks =>
      refine ⟨?_, trivial⟩
      rw [Watch.Timely, Watch.step, Clock.handleSleep]
      dsimp only
      split
      · rename_i none
        split
        · exact timely
        · exact timely
      · rename_i blocks
        rw [Threads.switchContext, if_neg (by simp)]
        cases running : s.clock.lists (.state .running) with
        | nil => exact timely
        | cons t rest =>
            have fits := unwrapped.resolve_left blocks
            have time : (s.clock.tickCount + ticks).toNat = s.clock.tickCount.toNat + ticks.toNat := by
              rw [BitVec.toNat_add]
              exact Nat.mod_eq_of_lt fits
            have asleep := Sched.Timely.sleep timely (running ▸ List.mem_cons_self) time
            exact asleep.alter next .running (by simp)
  | alter t state detail =>
      refine ⟨?_, trivial⟩
      rw [Watch.step]
      split
      · exact timely
      · rename_i awake
        exact Sched.Timely.alter timely t state awake
  | rotate => exact ⟨timely.roundRobin, trivial⟩

/-- In every run that stays within `tick_count` no sleeper is woken early, nor after one
that is due later. -/
theorem sleepers_punctual (s : Watch) (wf : s.clock.WellFormed) (start : s.clock.sleepers = [])
    (es : List Event) (unwrapped : StepsMeet Watch.step Unwrapped s es) :
    StepsMeet Watch.step Punctual s es :=
  stepsMeet_of_stepsMeet (I := Watch.Timely) (fun _ e timely fits => (timely.step e fits).2)
    (fun _ e timely fits => (timely.step e fits).1) (Sched.Timely.empty wf start _ _ _) unwrapped

/-- Thread 0 runs, and other threads are ready. -/
def runnable (ready : List Thread) (tickCount : BitVec 32) : Watch where
  clock :=
    { tcb := fun t => ⟨0, t, if t = 0 then .running else .ready, .deschedule⟩
      lists := fun
        | .state .running => [0]
        | .state .ready => ready
        | _ => []
      tickCount := tickCount }
  elapsed := 0
  due _ := 0

theorem wellFormed_runnable {ready : List Thread} (nodup : (0 :: ready).Nodup)
    (tickCount : BitVec 32) : (runnable ready tickCount).clock.WellFormed := by
  obtain ⟨other, rest⟩ := List.nodup_cons.mp nodup
  refine ⟨fun i => ?_, fun i t mem => ?_⟩
  · rcases i with (_ | _ | _ | _ | _) | _ <;> simp [runnable, rest]
  · rcases i with (_ | _ | _ | _ | _) | _ <;> simp [runnable] at mem ⊢
    · have ne : t ≠ 0 := by
        rintro rfl
        exact other mem
      simp [Tcb.listIdx, ne]
    · subst mem
      decide

/-- Thread 0 goes to sleep for five ticks, and thread 1 for three. -/
def twoSleep : List Event :=
  [.sleep 1 5, .sleep 2 3, .timer, .timer, .timer, .timer, .timer]

/-- Thread 1 is woken at the third tick and thread 0 at the fifth. -/
theorem sleepers_punctual_two :
    StepsMeet Watch.step Punctual (runnable [1, 2] 0) twoSleep ∧
      (run Watch.step (runnable [1, 2] 0) (twoSleep.take 4)).clock.sleepers = [1, 0] ∧
      (run Watch.step (runnable [1, 2] 0) (twoSleep.take 5)).clock.sleepers = [0] ∧
      (run Watch.step (runnable [1, 2] 0) twoSleep).clock.sleepers = [] := by
  refine ⟨sleepers_punctual (runnable [1, 2] 0) (wellFormed_runnable (by decide) 0) rfl twoSleep ?_,
    by decide, by decide, by decide⟩
  exact ⟨.inr (by decide), .inr (by decide), .inr (by decide), .inr (by decide), .inr (by decide),
    .inr (by decide), .inr (by decide), trivial⟩

/-- Three ticks before the end of `tick_count` a sleep of five ticks is over after one. -/
theorem sleeper_early : ¬ Punctual ((runnable [1] 0xFFFFFFFD).step (.sleep 1 5)) .timer := by
  intro punctual
  have early := (punctual 0 (by decide) (by decide)).1
  exact absurd early (by decide)

end Watch

end OsKernel.Sched
