/-
Round robin under timer preemption alone.

A thread that has been dispatched comes back behind its group, and a group that has been
served goes to the end. So a thread does not reach the head of the list again before every
other process that waits has been there (`Behind`): in front of it stands a thread of such
a process, or one of its own process that will move the group on.
-/

import OsKernel.Lib.Groups
import OsKernel.Sched.Lists

namespace OsKernel.Sched

open Groups

/-! ### One tick -/

/-- The timer and round robin alone: nobody sleeps, one thread runs, and the runnable
threads are grouped by process. -/
structure Fair (c : Clock) : Prop where
  wellFormed : c.WellFormed
  awake : c.lists (.reason .sleep) = []
  running : ∃ r, c.lists (.state .running) = [r]
  grouped : Grouped (fun u => (c.tcb u).pcb) (c.lists (.state .ready))

namespace Clock

/-- The thread that a tick dispatches. -/
def dispatched (c : Clock) : Option Thread :=
  (c.sleeper (c.tickCount + 1)).or (c.lists (.state .ready)).head?

/-- After this many ticks. -/
def ticks (c : Clock) : Nat → Clock
  | 0 => c
  | n + 1 => (c.ticks n).handleTimer

end Clock

section
variable {c : Clock} {h r : Thread} {rest : List Thread}

theorem sleeper_awake (fair : Fair c) (now : BitVec 32) : c.sleeper now = none := by
  rw [Clock.sleeper, fair.awake]

/-- The list of runnable threads after a tick that dispatches `h` and preempts `r`. -/
def afterTick (pcb : Thread → Nat) (r h : Thread) (ready : List Thread) : List Thread :=
  let rotated := Threads.rotate pcb ready
  (place rotated r (readyDestination pcb (pcb r) rotated) false).erase h

theorem tick_lists (fair : Fair c) (running : c.lists (.state .running) = [r])
    (ready : c.lists (.state .ready) = h :: rest) :
    c.handleTimer.lists (.state .running) = [h] ∧
      c.handleTimer.lists (.state .ready) = afterTick (fun u => (c.tcb u).pcb) r h (h :: rest) ∧
      c.handleTimer.lists (.reason .sleep) = [] ∧ c.handleTimer.WellFormed ∧
      ∀ u, (c.handleTimer.tcb u).pcb = (c.tcb u).pcb := by
  have head : c.roundRobin.2 = some h := by rw [Threads.roundRobin, ready]; rfl
  have wfk := fair.wellFormed.roundRobin
  have kReady : c.roundRobin.1.lists (.state .ready) =
      Threads.rotate (fun u => (c.tcb u).pcb) (h :: rest) := by
    simp only [Threads.roundRobin, Function.update_self, ready]
  have kOther : ∀ i, i ≠ .state .ready → c.roundRobin.1.lists i = c.lists i :=
    fun i other => Function.update_of_ne other ..
  have kTcb : c.roundRobin.1.tcb = c.tcb := rfl
  have kRunning := (kOther (.state .running) (by decide)).trans running
  have tick : c.handleTimer = ⟨(c.roundRobin.1.alter r .ready none).alter h .running none,
      c.tickCount + 1⟩ := by
    rw [Clock.handleTimer, sleeper_awake fair]
    dsimp only
    rw [show c.roundRobin = (c.roundRobin.1, some h) from Prod.ext rfl head]
    dsimp only
    rw [Threads.switchContext, if_neg (by simp), kRunning]
  rw [tick]
  generalize c.roundRobin.1 = k at *
  have mem : r ∈ k.lists (.state .running) := kRunning ▸ List.mem_cons_self
  have new : r ∉ k.lists (.state .ready) := fun inReady => by
    have one := wfk.listed _ r inReady
    rw [wfk.listed _ r mem] at one
    cases one
  have goes : k.destination r none .ready = some (.state .ready,
      readyDestination (fun u => (c.tcb u).pcb) (c.tcb r).pcb (k.lists (.state .ready)), false) := by
    rw [Threads.destination, kTcb]
  obtain ⟨mReady, mRunning, mOther⟩ := wfk.alter_lists mem (by decide) (by decide) goes
  have wfm := wfk.alter r .ready none
  obtain ⟨pre, post, whole, placed, -, -⟩ :=
    place_ready (fun u => (c.tcb u).pcb) (wfk.nodup (.state .ready)) new
  rw [kReady] at mReady
  rw [kRunning, List.erase_cons_head] at mRunning
  have hMem : h ∈ (k.alter r .ready none).lists (.state .ready) := by
    have inReady : h ∈ k.lists (.state .ready) := by
      rw [kReady]
      exact (Threads.rotate_perm _ _).mem_iff.mpr List.mem_cons_self
    rw [mReady, ← kReady, placed]
    rw [whole] at inReady
    simp only [List.mem_append, List.mem_cons] at inReady ⊢
    tauto
  have front : (k.alter r .ready none).destination h none .running =
      some (.state .running, none, true) := by
    rw [Threads.destination, mRunning]
    rfl
  obtain ⟨nRunning, nReady, nOther⟩ := wfm.alter_lists hMem (by decide) (by decide) front
  refine ⟨nRunning, ?_, ?_, wfm.alter h .running none, fun u => ?_⟩
  · rw [nReady, mReady]
    rfl
  · rw [nOther _ (by decide) (by decide), mOther _ (by decide) (by decide), kOther _ (by decide),
      fair.awake]
  · rw [(Threads.alter_names u).1, (Threads.alter_names u).1, kTcb]

theorem dispatched_eq (fair : Fair c) : c.dispatched = (c.lists (.state .ready)).head? := by
  rw [Clock.dispatched, sleeper_awake fair]
  rfl

theorem tick_idle (fair : Fair c) (ready : c.lists (.state .ready) = []) :
    c.handleTimer.toThreads = c.toThreads := by
  rw [Clock.handleTimer, sleeper_awake fair]
  dsimp only
  rw [show c.roundRobin = (c.roundRobin.1, none) by rw [Threads.roundRobin, ready]; rfl]

theorem grouped_rotate {pcb : Thread → Nat} {l : List Thread} (grouped : Grouped pcb l) :
    Grouped pcb (Threads.rotate pcb l) := by
  cases l with
  | nil => exact grouped
  | cons h rest =>
      have turned := grouped.rotate
      rw [Threads.rotate]
      cases behind : rest.dropWhile fun u => pcb u = pcb h with
      | nil => exact grouped
      | cons d ds =>
          rw [behind] at turned
          exact turned

/-- The thread that is preempted is not in the list of runnable threads. -/
theorem running_not_ready (fair : Fair c) (running : c.lists (.state .running) = [r]) :
    r ∉ c.lists (.state .ready) := fun mem => by
  have one := fair.wellFormed.listed _ r mem
  rw [fair.wellFormed.listed (.state .running) r (running ▸ List.mem_cons_self)] at one
  cases one

/-- A tick puts the preempted thread behind its group in the turned list, and takes the
dispatched thread out. -/
theorem afterTick_eq (fair : Fair c) (running : c.lists (.state .running) = [r]) (h : Thread) :
    let pcb := fun u => (c.tcb u).pcb
    ∃ pre post, Threads.rotate pcb (c.lists (.state .ready)) = pre ++ post ∧
      afterTick pcb r h (c.lists (.state .ready)) = (pre ++ r :: post).erase h ∧
      (∀ u ∈ post, pcb u ≠ pcb r) ∧
      ((∃ init e, pre = init ++ [e] ∧ pcb e = pcb r) ∨ post = [] ∧ ∀ u ∈ pre, pcb u ≠ pcb r) := by
  intro pcb
  have perm := Threads.rotate_perm pcb (c.lists (.state .ready))
  have new : r ∉ Threads.rotate pcb (c.lists (.state .ready)) := fun mem =>
    running_not_ready fair running (perm.mem_iff.mp mem)
  obtain ⟨pre, post, whole, placed, behind, last⟩ :=
    place_ready pcb (perm.nodup_iff.mpr (fair.wellFormed.nodup _)) new
  exact ⟨pre, post, whole, congrArg (List.erase · h) placed, behind, last⟩

theorem Fair.tick (fair : Fair c) : Fair c.handleTimer := by
  cases ready : c.lists (.state .ready) with
  | nil =>
      have idle := tick_idle fair ready
      exact ⟨idle ▸ fair.wellFormed, by rw [idle]; exact fair.awake, by rw [idle]; exact fair.running,
        by rw [idle]; exact fair.grouped⟩
  | cons h rest =>
      obtain ⟨r, running⟩ := fair.running
      obtain ⟨nRunning, nReady, nSleep, wf, pcbs⟩ := tick_lists fair running ready
      refine ⟨wf, nSleep, ⟨h, nRunning⟩, ?_⟩
      obtain ⟨pre, post, whole, after, behind, last⟩ := afterTick_eq fair running h
      rw [ready] at whole after
      have turned := grouped_rotate fair.grouped
      rw [ready, whole] at turned
      rw [nReady, after]
      simp only [pcbs]
      exact (turned.insert behind last).sublist List.erase_sublist

/-! ### Who is in front -/

/-- Process `p` has a runnable thread, and thread `t` runs or has a thread of `p` or of its
own process in front of it. -/
structure Behind (c : Clock) (t : Thread) (p : Nat) : Prop where
  waits : ∃ u ∈ c.lists (.state .ready), (c.tcb u).pcb = p
  front : c.lists (.state .running) = [t] ∨ ∃ u, List.Sublist [u, t] (c.lists (.state .ready)) ∧
    ((c.tcb u).pcb = p ∨ (c.tcb u).pcb = (c.tcb t).pcb)

/-- A thread of another process than the head stands behind the first group. -/
theorem mem_behind (pcb : Thread → Nat) {u : Thread} (mem : u ∈ h :: rest) (other : pcb u ≠ pcb h) :
    u ∈ rest.dropWhile fun v => pcb v = pcb h := by
  have inRest : u ∈ rest := (List.mem_cons.mp mem).resolve_left fun same => other (by rw [same])
  rw [← List.takeWhile_append_dropWhile (p := fun v => decide (pcb v = pcb h)) (l := rest),
    List.mem_append] at inRest
  refine inRest.resolve_left fun group => other ?_
  have key := List.mem_takeWhile_imp (p := fun v => decide (pcb v = pcb h)) group
  exact of_decide_eq_true key

theorem rotate_eq (pcb : Thread → Nat) {u : Thread} (mem : u ∈ h :: rest) (other : pcb u ≠ pcb h) :
    Threads.rotate pcb (h :: rest) = (rest.dropWhile fun v => pcb v = pcb h) ++
      h :: rest.takeWhile fun v => pcb v = pcb h := by
  have behind := mem_behind pcb mem other
  rw [Threads.rotate]
  cases parts : rest.dropWhile fun v => pcb v = pcb h with
  | nil =>
      rw [parts] at behind
      cases behind
  | cons d ds => rfl

/-- What the turned list says of `t`, if it is not the one that runs. -/
theorem front_rotate {pcb : Thread → Nat} {t q : Thread} {p : Nat} (grouped : Grouped pcb (h :: rest))
    (nodup : (h :: rest).Nodup) (waits : q ∈ h :: rest) (own : pcb q = p) (unserved : pcb h ≠ p)
    (front : ∃ u, List.Sublist [u, t] (h :: rest) ∧ (pcb u = p ∨ pcb u = pcb t)) :
    t ≠ h ∧ ∃ u, u ≠ h ∧ List.Sublist [u, t] (Threads.rotate pcb (h :: rest)) ∧
      (pcb u = p ∨ pcb u = pcb t) := by
  obtain ⟨u, pair, key⟩ := front
  have inRest : t ∈ rest := by
    rcases pair_append (l := [h]) pair with pair | ⟨-, mem⟩ | pair
    · exact absurd pair.length_le (by simp)
    · exact mem
    · exact pair.subset (by simp)
  have notHead : t ≠ h := fun same => (List.nodup_cons.mp nodup).1 (same ▸ inRest)
  have qOther : pcb q ≠ pcb h := by rw [own]; exact unserved.symm
  have qNotHead : q ≠ h := fun same => qOther (by rw [same])
  have whole := List.takeWhile_append_dropWhile (p := fun v => decide (pcb v = pcb h)) (l := rest)
  refine ⟨notHead, ?_⟩
  rw [rotate_eq _ waits qOther]
  by_cases group : pcb t = pcb h
  · -- the group of `t` goes to the end, behind the thread that waits
    have inGroup : t ∈ rest.takeWhile fun v => pcb v = pcb h := by
      rw [← whole, List.mem_append] at inRest
      exact inRest.resolve_right fun mem => grouped.ne_of_mem_dropWhile mem group
    exact ⟨q, qNotHead, pair_of_mem_append (mem_behind _ waits qOther) (List.mem_cons_of_mem h inGroup),
      .inl own⟩
  · -- the first group is another one, and `u` stays in front of `t`
    have uOther : pcb u ≠ pcb h := by
      rcases key with key | key
      · rw [key]
        exact unserved.symm
      · rw [key]
        exact group
    have uNotHead : u ≠ h := fun same => uOther (by rw [same])
    have inGroup : ∀ {v}, v ∈ rest.takeWhile (fun v => pcb v = pcb h) → pcb v = pcb h := by
      intro v mem
      have same := List.mem_takeWhile_imp (p := fun v => decide (pcb v = pcb h)) mem
      exact of_decide_eq_true same
    refine ⟨u, uNotHead, ?_, key⟩
    rcases pair_append (l := [h]) pair with pair | ⟨mem, -⟩ | pair
    · exact absurd pair.length_le (by simp)
    · exact absurd (List.mem_singleton.mp mem) uNotHead
    · rw [← whole] at pair
      rcases pair_append pair with pair | ⟨mem, -⟩ | pair
      · exact absurd (inGroup (pair.subset List.mem_cons_self)) uOther
      · exact absurd (inGroup mem) uOther
      · exact pair.trans (List.sublist_append_left _ _)

/-- A tick that dispatches a thread of another process than `p` leaves `t` behind. -/
theorem Behind.tick {t : Thread} {p : Nat} (fair : Fair c)
    (behind : Behind c t p) (ready : c.lists (.state .ready) = h :: rest)
    (unserved : (c.tcb h).pcb ≠ p) : Behind c.handleTimer t p := by
  obtain ⟨r, running⟩ := fair.running
  obtain ⟨nRunning, nReady, -, -, pcbs⟩ := tick_lists fair running ready
  obtain ⟨pre, post, whole, after, others, last⟩ := afterTick_eq fair running h
  have nodup := fair.wellFormed.nodup (.state .ready)
  have new := running_not_ready fair running
  obtain ⟨⟨q, waits, own⟩, front⟩ := behind
  rw [ready] at whole after nodup new waits front
  have qNotHead : q ≠ h := by
    rintro rfl
    exact unserved own
  have keeps : ∀ {u v}, u ≠ h → v ≠ h → List.Sublist [u, v] (pre ++ r :: post) →
      List.Sublist [u, v] (c.handleTimer.lists (.state .ready)) := by
    intro u v uOther vOther pair
    rw [nReady, after]
    have kept := pair.erase h
    rwa [List.erase_of_not_mem (by simp [uOther.symm, vOther.symm])] at kept
  have inserted : List.Sublist (pre ++ post) (pre ++ r :: post) :=
    (List.Sublist.refl pre).append (List.sublist_cons_self r post)
  have turned : q ∈ pre ++ post := whole ▸ (Threads.rotate_perm _ _).mem_iff.mpr waits
  refine ⟨⟨q, ?_, by rw [pcbs]; exact own⟩, .inr ?_⟩
  · rw [nReady, after]
    exact (List.mem_erase_of_ne qNotHead).mpr (inserted.subset turned)
  simp only [pcbs]
  rcases front with runs | front
  swap
  · have grouped := fair.grouped
    rw [ready] at grouped
    obtain ⟨tOther, u, uOther, pair, key⟩ :=
      front_rotate grouped nodup waits own unserved front
    rw [whole] at pair
    exact ⟨u, keeps uOther tOther (pair.trans inserted), key⟩
  -- `t` comes back behind its group
  obtain rfl : r = t := by simpa [running] using runs
  have tOther : r ≠ h := fun same => new (same ▸ List.mem_cons_self)
  have before : ∀ {u}, u ∈ pre → List.Sublist [u, r] (pre ++ r :: post) :=
    fun mem => pair_of_mem_append mem List.mem_cons_self
  obtain ⟨init, e, rfl, key⟩ | ⟨rfl, -⟩ := last
  · by_cases head : e = h
    · subst head
      have qOther : (c.tcb q).pcb ≠ (c.tcb e).pcb := by rw [own]; exact unserved.symm
      have pair : List.Sublist [q, e] (init ++ [e] ++ post) := by
        rw [← whole, rotate_eq (fun u => (c.tcb u).pcb) waits qOther]
        exact pair_of_mem_append (mem_behind (fun u => (c.tcb u).pcb) waits qOther)
          List.mem_cons_self
      refine ⟨q, keeps qNotHead tOther (before ?_), .inl own⟩
      rcases pair_append pair with pair | ⟨mem, -⟩ | pair
      · exact pair.subset List.mem_cons_self
      · exact mem
      · exact absurd key (others e (pair.subset (by simp)))
    · exact ⟨e, keeps head tOther (before (by simp)), .inr key⟩
  · rw [List.append_nil] at turned
    exact ⟨q, keeps qNotHead tOther (before turned), .inl own⟩

/-! ### Runs of ticks -/

theorem Fair.ticks (fair : Fair c) (n : Nat) : Fair (c.ticks n) := by
  induction n with
  | zero => exact fair
  | succ n ih => exact ih.tick

theorem ticks_pcb (fair : Fair c) (n : Nat) (u : Thread) : ((c.ticks n).tcb u).pcb = (c.tcb u).pcb := by
  induction n with
  | zero => rfl
  | succ n ih =>
      rw [← ih, Clock.ticks]
      cases ready : (c.ticks n).lists (.state .ready) with
      | nil => rw [tick_idle (fair.ticks n) ready]
      | cons h rest =>
          obtain ⟨r, running⟩ := (fair.ticks n).running
          exact (tick_lists (fair.ticks n) running ready).2.2.2.2 u

/-- The thread that a tick dispatches runs after it. -/
theorem running_tick {t : Thread} (fair : Fair c) (dispatched : c.dispatched = some t) :
    c.handleTimer.lists (.state .running) = [t] := by
  rw [dispatched_eq fair] at dispatched
  cases ready : c.lists (.state .ready) with
  | nil =>
      rw [ready] at dispatched
      cases dispatched
  | cons h rest =>
      rw [ready, List.head?_cons, Option.some.injEq] at dispatched
      obtain ⟨r, running⟩ := fair.running
      rw [← dispatched]
      exact (tick_lists fair running ready).1

/-- A thread that has another one in front of it is not dispatched. -/
theorem Behind.not_dispatched {t : Thread} {p : Nat} (fair : Fair c) (behind : Behind c t p) :
    c.dispatched ≠ some t := by
  intro dispatched
  rw [dispatched_eq fair] at dispatched
  cases ready : c.lists (.state .ready) with
  | nil =>
      rw [ready] at dispatched
      cases dispatched
  | cons h rest =>
      rw [ready, List.head?_cons, Option.some.injEq] at dispatched
      subst dispatched
      have nodup := fair.wellFormed.nodup (.state .ready)
      rcases behind.front with running | ⟨u, pair, -⟩
      · exact running_not_ready fair running (by rw [ready]; exact List.mem_cons_self)
      · rw [ready] at pair nodup
        have inRest : h ∈ rest := by
          rcases pair_append (l := [h]) pair with pair | ⟨-, mem⟩ | pair
          · exact absurd pair.length_le (by simp)
          · exact mem
          · exact pair.subset (by simp)
        exact (List.nodup_cons.mp nodup).1 inRest

/-- Between two dispatches of one thread every other process is served that had a runnable
thread right after the first of them. -/
theorem round_robin_fair (c : Clock) (fair : Fair c) {i j : Nat} (lt : i < j) {t : Thread}
    (first : (c.ticks i).dispatched = some t) (again : (c.ticks j).dispatched = some t) {p : Nat}
    (waits : ∃ u ∈ (c.ticks (i + 1)).lists (.state .ready), (c.tcb u).pcb = p) :
    ∃ n, i < n ∧ n < j ∧ ∃ u, (c.ticks n).dispatched = some u ∧ (c.tcb u).pcb = p := by
  by_contra unserved
  push Not at unserved
  have behind : ∀ n, i < n → n ≤ j → Behind (c.ticks n) t p := by
    intro n
    induction n with
    | zero => exact fun no => absurd no (Nat.not_lt_zero i)
    | succ n ih =>
        intro after before
        have fairN := fair.ticks n
        by_cases start : n = i
        · subst start
          obtain ⟨u, mem, own⟩ := waits
          exact ⟨⟨u, mem, by rw [ticks_pcb fair]; exact own⟩, .inl (running_tick fairN first)⟩
        · have now := ih (by omega) (by omega)
          obtain ⟨u, mem, -⟩ := now.waits
          cases ready : (c.ticks n).lists (.state .ready) with
          | nil =>
              rw [ready] at mem
              cases mem
          | cons h rest =>
              refine now.tick fairN ready ?_
              rw [ticks_pcb fair]
              exact unserved n (by omega) (by omega) h (by rw [dispatched_eq fairN, ready]; rfl)
  exact (behind j lt (Nat.le_refl j)).not_dispatched (fair.ticks j) again

end

/-- Three processes with one thread each; the first runs. -/
def threeProcesses : Clock where
  tcb t := ⟨t, t, if t = 0 then .running else .ready, .deschedule⟩
  lists
    | .state .running => [0]
    | .state .ready => [1, 2]
    | _ => []
  tickCount := 0

theorem fair_threeProcesses : Fair threeProcesses := by
  refine ⟨⟨fun i => ?_, fun i t mem => ?_⟩, rfl, ⟨0, rfl⟩, fun x y z three => ?_⟩
  · rcases i with (_ | _ | _ | _ | _) | _ <;> simp [threeProcesses]
  · rcases i with (_ | _ | _ | _ | _) | _ <;> simp [threeProcesses] at mem ⊢
    · obtain rfl | rfl := mem <;> decide
    · subst mem
      decide
  · exact absurd three.length_le (show ¬ 3 ≤ 2 by decide)

theorem round_robin_fair_three : ∃ n, 0 < n ∧ n < 3 ∧ ∃ u,
    (threeProcesses.ticks n).dispatched = some u ∧ (threeProcesses.tcb u).pcb = 2 :=
  round_robin_fair threeProcesses fair_threeProcesses (by decide) (t := 1) (by decide) (by decide)
    ⟨2, by decide, rfl⟩

end OsKernel.Sched
