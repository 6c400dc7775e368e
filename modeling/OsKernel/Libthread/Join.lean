/-
A thread is joined once (`thr_join` and `thr_exit` of `user/libthread/thread.c`).

A joiner that waits gives up the mutex, so another one may find the thread exited before
the first has come back, and both clean up; and `destruct_each_thread` frees one stack
as often as there are records. In the runs without these two, and in no others, every
thread is joined and its memory is freed at most once, and a joiner that waits will find
the record untouched. `thread_info` itself is never freed.
-/

import OsKernel.Libthread.Threads

namespace OsKernel.Libthread

open Run State

/-- No thread is joined, or has its stack or its node freed, a second time; a join reports
what the thread gave to `thr_exit`; and nobody finds or waits for a thread that was
cleaned up. -/
structure JoinedOnce (s : State) : Prop where
  joins : (s.joins.map Prod.fst).Nodup
  reported : ∀ u status, (u, status) ∈ s.joins → s.passed u = some status
  stackFrees : s.stackFrees.Nodup
  nodeFrees : s.nodeFrees.Nodup
  untouched : ∀ u, u ∈ s.chain ∨ (∃ t, s.waits t = some u) → u ∉ s.stackFrees ∧ u ∉ s.nodeFrees

/-- No `thr_join` finds a thread that has exited and that somebody else is still joining;
and with the last thread, or a crash, there is one record left. -/
def Alone (s : State) : Input → Prop
  | .join t tid => s.live t = true → ∀ u, s.find tid = some u →
      (s.info u).hasExited = true → (s.info u).isJoinedOn = false
  | .exit t _ => s.live t = true → s.threadAliveCount ≤ 1 → s.chain.length ≤ 1
  | .crash t => s.able t = true → s.chain.length ≤ 1
  | _ => True

/-- A thread whose record has left the chain. -/
def Gone (s : State) (u : Thread) : Prop := u ∉ s.chain ∧ u < s.count

structure JoinInv (s : State) : Prop where
  nodup : s.chain.Nodup
  created : ∀ u ∈ s.chain, u < s.count
  named : ∀ t < s.count, ∀ u < s.count, 0 ≤ (s.info t).tid → (s.info t).tid = (s.info u).tid → t = u
  joined : ∀ u ∈ s.joins.map Prod.fst, Gone s u
  stackFreed : ∀ u ∈ s.stackFrees, Gone s u
  nodeFreed : ∀ u ∈ s.nodeFrees, Gone s u
  exited : ∀ u ∈ s.chain, (s.info u).hasExited = true → s.passed u = some (s.info u).status
  waiting : ∀ t u, s.waits t = some u → t ∈ s.chain ∧ (s.info t).hasExited = false ∧ u ∈ s.chain ∧
    (s.info u).isJoinedOn = true
  sole : ∀ t t' u, s.waits t = some u → s.waits t' = some u → t = t'
  joinsOnce : (s.joins.map Prod.fst).Nodup
  reported : ∀ u status, (u, status) ∈ s.joins → s.passed u = some status
  stackOnce : s.stackFrees.Nodup
  nodeOnce : s.nodeFrees.Nodup

section
variable {s : State} {t u : Thread}

theorem mem_of_able (runs : s.able t = true) : t ∈ s.chain := (of_decide_eq_true runs).1

theorem mem_of_find {tid : Int} (found : s.find tid = some u) : u ∈ s.chain :=
  List.mem_of_find?_eq_some found

theorem JoinInv.once (inv : JoinInv s) : JoinedOnce s := by
  refine ⟨inv.joinsOnce, inv.reported, inv.stackOnce, inv.nodeOnce, fun u reached => ?_⟩
  have mem : u ∈ s.chain := reached.elim id fun ⟨t, waits⟩ => (inv.waiting t u waits).2.2.1
  exact ⟨fun freed => (inv.stackFreed u freed).1 mem, fun freed => (inv.nodeFreed u freed).1 mem⟩

/-- `thr_exit` finds the record of its caller. -/
theorem JoinInv.findLast (inv : JoinInv s) (runs : s.able t = true) :
    s.findLast (s.info t).tid = some t := by
  have runs := of_decide_eq_true runs
  have own : t ∈ s.chain.filter fun u => (s.info u).tid = (s.info t).tid :=
    List.mem_filter.mpr ⟨runs.1, decide_eq_true rfl⟩
  rw [State.findLast, List.getLast?_eq_some_getLast (List.ne_nil_of_mem own)]
  have last := List.getLast_mem (List.ne_nil_of_mem own)
  obtain ⟨mem, same⟩ := List.mem_filter.mp last
  have named := inv.named t (inv.created t runs.1) _ (inv.created _ mem) runs.2.1
  exact congrArg some (named (of_decide_eq_true same).symm).symm

/-- One more thread is gone. -/
theorem gone_snoc {s' : State} {log : List Thread} (old : ∀ v ∈ log, Gone s v)
    (keeps : ∀ v, Gone s v → Gone s' v) (gone : Gone s' u) : ∀ v ∈ log ++ [u], Gone s' v := by
  intro v mem
  rcases List.mem_append.mp mem with mem | mem
  · exact keeps v (old v mem)
  · rw [List.mem_singleton.mp mem]
    exact gone

theorem nodup_snoc {log : List Thread} (nodup : log.Nodup) (old : ∀ v ∈ log, Gone s v)
    (mem : u ∈ s.chain) : (log ++ [u]).Nodup := by
  refine List.nodup_append.mpr ⟨nodup, List.nodup_singleton u, ?_⟩
  rintro v logged w new rfl
  rw [List.mem_singleton.mp new] at logged
  exact (old u logged).1 mem

/-- A thread that a join has cleaned up. -/
theorem JoinInv.cleanup (inv : JoinInv s) (mem : u ∈ s.chain) (exited : (s.info u).hasExited = true)
    (nobody : ∀ t, s.waits t ≠ some u) : JoinInv (s.cleanup u) := by
  have less : ∀ v, v ∈ s.chain.erase u → v ∈ s.chain := fun v => List.mem_of_mem_erase
  have keeps (v : Thread) (gone : Gone s v) : Gone (s.cleanup u) v :=
    ⟨fun kept => gone.1 (less v kept), gone.2⟩
  have gone : Gone (s.cleanup u) u := ⟨inv.nodup.not_mem_erase, inv.created u mem⟩
  have joins : (s.cleanup u).joins.map Prod.fst = s.joins.map Prod.fst ++ [u] := List.map_append
  have nodes : (s.cleanup u).nodeFrees = s.nodeFrees ++ [u] := if_pos mem
  refine ⟨inv.nodup.erase u, fun v kept => inv.created v (less v kept), inv.named, ?_, ?_, ?_,
    fun v kept => inv.exited v (less v kept), ?_, inv.sole, ?_, ?_, ?_, ?_⟩
  · rw [joins]
    exact gone_snoc inv.joined keeps gone
  · exact gone_snoc inv.stackFreed keeps gone
  · rw [nodes]
    exact gone_snoc inv.nodeFreed keeps gone
  · intro t v waits
    obtain ⟨mem', running, mem'', joinedOn⟩ := inv.waiting t v waits
    have waiter : t ≠ u := fun same => by rw [same, exited] at running; cases running
    have other : v ≠ u := fun same => nobody t (same ▸ waits)
    exact ⟨(List.mem_erase_of_ne waiter).mpr mem', running, (List.mem_erase_of_ne other).mpr mem'',
      joinedOn⟩
  · rw [joins]
    exact nodup_snoc inv.joinsOnce inv.joined mem
  · intro v status joined
    rcases List.mem_append.mp joined with old | new
    · exact inv.reported v status old
    · cases List.mem_singleton.mp new
      exact inv.exited u mem exited
  · exact nodup_snoc inv.stackOnce inv.stackFreed mem
  · rw [nodes]
    exact nodup_snoc inv.nodeOnce inv.nodeFreed mem

/-- A joiner stops waiting. -/
theorem JoinInv.stop (inv : JoinInv s) (t : Thread) :
    JoinInv (s.setWaits t none) := by
  have fewer (u v : Thread) (waits : (s.setWaits t none).waits u = some v) : s.waits u = some v := by
    by_cases self : u = t
    · subst self
      rw [setWaits_self] at waits
      cases waits
    · rwa [setWaits_other self] at waits
  exact ⟨inv.nodup, inv.created, inv.named, inv.joined, inv.stackFreed, inv.nodeFreed, inv.exited,
    fun u v waits => inv.waiting u v (fewer u v waits),
    fun u u' v waits waits' => inv.sole u u' v (fewer u v waits) (fewer u' v waits'),
    inv.joinsOnce, inv.reported, inv.stackOnce, inv.nodeOnce⟩

theorem JoinInv.resume (inv : JoinInv s) (t : Thread) : JoinInv (s.resume t) := by
  unfold State.resume
  cases waits : s.waits t with
  | none => exact inv
  | some u =>
      dsimp only
      split
      · rename_i exited
        refine (inv.stop t).cleanup (inv.waiting t u waits).2.2.1 exited fun t' waits' => ?_
        by_cases self : t' = t
        · subst self
          rw [setWaits_self] at waits'
          cases waits'
        · rw [setWaits_other self] at waits'
          exact self (inv.sole t' t u waits' waits)
      · exact inv

/-- A record is written, but not its thread number. -/
theorem JoinInv.named_setInfo (inv : JoinInv s) (info : ThreadInfo)
    (same : info.tid = (s.info u).tid) :
    ∀ t < s.count, ∀ v < s.count, 0 ≤ ((s.setInfo u info).info t).tid →
      ((s.setInfo u info).info t).tid = ((s.setInfo u info).info v).tid → t = v := by
  have kept (v : Thread) : ((s.setInfo u info).info v).tid = (s.info v).tid := by
    by_cases self : v = u
    · subst self
      rw [setInfo_self, same]
    · rw [setInfo_other self]
  intro t lt v lt' named
  rw [kept] at named
  rw [kept, kept]
  exact inv.named t lt v lt' named

/-- The flag in a record that somebody joins the thread is set. -/
theorem JoinInv.markJoined (inv : JoinInv s) (u : Thread) :
    JoinInv (s.setInfo u { s.info u with isJoinedOn := true }) := by
  have named := inv.named_setInfo { s.info u with isJoinedOn := true } rfl
  generalize after : s.setInfo u { s.info u with isJoinedOn := true } = s' at named ⊢
  have kept (v : Thread) : (s'.info v).hasExited = (s.info v).hasExited ∧
      (s'.info v).status = (s.info v).status ∧
      ((s.info v).isJoinedOn = true → (s'.info v).isJoinedOn = true) := by
    rw [← after]
    by_cases self : v = u
    · subst self
      rw [setInfo_self]
      exact ⟨rfl, rfl, fun _ => rfl⟩
    · rw [setInfo_other self]
      exact ⟨rfl, rfl, id⟩
  have exited (v : Thread) (mem : v ∈ s.chain) (exits : (s'.info v).hasExited = true) :
      s.passed v = some (s'.info v).status := by
    rw [(kept v).1] at exits
    rw [(kept v).2.1]
    exact inv.exited v mem exits
  have waiting (t v : Thread) (waits : s.waits t = some v) : t ∈ s.chain ∧
      (s'.info t).hasExited = false ∧ v ∈ s.chain ∧ (s'.info v).isJoinedOn = true := by
    obtain ⟨mem, running, mem', joinedOn⟩ := inv.waiting t v waits
    exact ⟨mem, (kept t).1.trans running, mem', (kept v).2.2 joinedOn⟩
  subst after
  exact ⟨inv.nodup, inv.created, named, inv.joined, inv.stackFreed, inv.nodeFreed, exited, waiting,
    inv.sole, inv.joinsOnce, inv.reported, inv.stackOnce, inv.nodeOnce⟩

/-- A joiner starts to wait for a thread that nobody else waits for. -/
theorem JoinInv.startWait (inv : JoinInv s) (mem : t ∈ s.chain)
    (running : (s.info t).hasExited = false) (mem' : u ∈ s.chain)
    (joinedOn : (s.info u).isJoinedOn = true) (nobody : ∀ t', s.waits t' ≠ some u) :
    JoinInv (s.setWaits t (some u)) := by
  have cases (t' v : Thread) (waits : (s.setWaits t (some u)).waits t' = some v) :
      t' = t ∧ v = u ∨ t' ≠ t ∧ v ≠ u ∧ s.waits t' = some v := by
    by_cases self : t' = t
    · subst self
      rw [setWaits_self, Option.some.injEq] at waits
      exact .inl ⟨rfl, waits.symm⟩
    · rw [setWaits_other self] at waits
      exact .inr ⟨self, fun same => nobody t' (same ▸ waits), waits⟩
  refine ⟨inv.nodup, inv.created, inv.named, inv.joined, inv.stackFreed, inv.nodeFreed, inv.exited,
    fun t' v waits => ?_, fun t' t'' v waits waits' => ?_,
    inv.joinsOnce, inv.reported, inv.stackOnce, inv.nodeOnce⟩
  · rcases cases t' v waits with ⟨rfl, rfl⟩ | ⟨-, -, old⟩
    · exact ⟨mem, running, mem', joinedOn⟩
    · exact inv.waiting t' v old
  · rcases cases t' v waits with ⟨rfl, rfl⟩ | ⟨-, other, old⟩
    · rcases cases t'' v waits' with ⟨rfl, -⟩ | ⟨-, other, -⟩
      · rfl
      · exact absurd rfl other
    · rcases cases t'' v waits' with ⟨-, same⟩ | ⟨-, -, old'⟩
      · exact absurd same other
      · exact inv.sole t' t'' v old old'

theorem JoinInv.join (inv : JoinInv s) {tid : Int} (runs : s.live t = true)
    (alone : Alone s (.join t tid)) : JoinInv (s.join t tid) := by
  have alone := alone runs
  simp only [State.live, Bool.and_eq_true, Bool.not_eq_true'] at runs
  have caller := mem_of_able runs.1
  unfold State.join
  cases found : s.find tid with
  | none => exact inv
  | some u =>
      have mem := mem_of_find found
      dsimp only
      split
      · rename_i exited
        refine inv.cleanup mem exited fun t' waits => ?_
        have joinedOn := (inv.waiting t' u waits).2.2.2
        rw [alone u found exited] at joinedOn
        cases joinedOn
      · split
        · exact inv
        · rename_i first
          have running :
              ((s.setInfo u { s.info u with isJoinedOn := true }).info t).hasExited = false := by
            by_cases self : t = u
            · subst self
              rw [setInfo_self]
              exact runs.2
            · rw [setInfo_other self]
              exact runs.2
          refine (inv.markJoined u).startWait caller running mem ?_ fun t' waits => ?_
          · rw [setInfo_self]
          · exact first (inv.waiting t' u waits).2.2.2

theorem JoinInv.create (inv : JoinInv s) {stack : Addr} {tid : Int} (node : Bool)
    (fresh : s.fresh stack tid = true) : JoinInv (s.create stack node tid) := by
  obtain ⟨-, -, unused⟩ := of_decide_eq_true fresh
  have old (u : Thread) (lt : u < s.count) : (s.create stack node tid).info u = s.info u :=
    setInfo_other (Nat.ne_of_lt lt) _
  have new : (s.create stack node tid).info s.count = ⟨tid, stack, false, false, 0⟩ :=
    setInfo_self ..
  have mem (u : Thread) (kept : u ∈ (s.create stack node tid).chain) :
      u ∈ s.chain ∨ u = s.count := by
    cases node with
    | false => exact .inl kept
    | true => exact (List.mem_append.mp kept).imp_right List.mem_singleton.mp
  have more (u : Thread) (listed : u ∈ s.chain) : u ∈ (s.create stack node tid).chain := by
    cases node with
    | false => exact listed
    | true => exact List.mem_append_left _ listed
  have absent : s.count ∉ s.chain := fun mem => Nat.lt_irrefl _ (inv.created _ mem)
  have keeps (u : Thread) (gone : Gone s u) : Gone (s.create stack node tid) u :=
    ⟨fun kept => (mem u kept).elim gone.1 (Nat.ne_of_lt gone.2), Nat.lt_succ_of_lt gone.2⟩
  refine ⟨?_, fun u kept => ?_, ?_, fun u log => keeps u (inv.joined u log),
    fun u log => keeps u (inv.stackFreed u log), fun u log => keeps u (inv.nodeFreed u log),
    fun u kept exited => ?_, fun t u waits => ?_, inv.sole, inv.joinsOnce, inv.reported,
    inv.stackOnce, inv.nodeOnce⟩
  · cases node with
    | false => exact inv.nodup
    | true =>
        refine List.nodup_append.mpr ⟨inv.nodup, List.nodup_singleton _, ?_⟩
        rintro u mem v last rfl
        exact absent (List.mem_singleton.mp last ▸ mem)
  · rcases mem u kept with kept | rfl
    · exact Nat.lt_succ_of_lt (inv.created u kept)
    · exact Nat.lt_succ_self _
  · intro t lt u lt' nonneg same
    rcases Nat.lt_succ_iff_lt_or_eq.mp lt with lt | rfl
    · rw [old t lt] at nonneg same
      rcases Nat.lt_succ_iff_lt_or_eq.mp lt' with lt' | rfl
      · rw [old u lt'] at same
        exact inv.named t lt u lt' nonneg same
      · rw [new] at same
        have given : 0 ≤ tid := by
          rw [same] at nonneg
          exact nonneg
        exact absurd same (unused given t lt)
    · rw [new] at nonneg same
      rcases Nat.lt_succ_iff_lt_or_eq.mp lt' with lt' | rfl
      · rw [old u lt'] at same
        exact absurd same.symm (unused nonneg u lt')
      · rfl
  · rcases mem u kept with kept | rfl
    · rw [old u (inv.created u kept)] at exited ⊢
      exact inv.exited u kept exited
    · rw [new] at exited
      cases exited
  · obtain ⟨mem, running, mem', joinedOn⟩ := inv.waiting t u waits
    rw [old t (inv.created t mem), old u (inv.created u mem')]
    exact ⟨more t mem, running, more u mem', joinedOn⟩

/-- With one record left, it is freed once. -/
theorem destruct_single {s : State} (single : s.chain = [t]) :
    s.destructEachThread = { s with
      chain := []
      stacksOut := s.stacksOut.erase (s.info t).stackSpace
      stackFrees := s.stackFrees ++ [t]
      nodeFrees := s.nodeFrees ++ [t]
      ending := true } := by
  simp [State.destructEachThread, single, State.destructLoop]

theorem chain_single (runs : s.able t = true) (single : s.chain.length ≤ 1) : s.chain = [t] := by
  have mem := mem_of_able runs
  cases chain : s.chain with
  | nil =>
      rw [chain] at mem
      cases mem
  | cons u rest =>
      rw [chain, List.length_cons] at single
      have empty : rest = [] := List.length_eq_zero_iff.mp (by omega)
      rw [chain, empty, List.mem_singleton] at mem
      rw [mem, empty]

theorem JoinInv.destruct (inv : JoinInv s) (runs : s.able t = true) (single : s.chain.length ≤ 1) :
    JoinInv s.destructEachThread := by
  have chain := chain_single runs single
  have idle := (of_decide_eq_true runs).2.2.1
  have own : t ∈ s.chain := mem_of_able runs
  have nobody (t' u : Thread) (waits : s.waits t' = some u) : False := by
    have mem := (inv.waiting t' u waits).1
    rw [chain, List.mem_singleton] at mem
    rw [mem, idle] at waits
    cases waits
  rw [destruct_single chain]
  have gone (u : Thread) (lt : u < s.count) : Gone { s with chain := [] } u := ⟨List.not_mem_nil, lt⟩
  have keeps (u : Thread) (old : Gone s u) : Gone { s with chain := [] } u := gone u old.2
  have last := gone t (inv.created t own)
  exact ⟨List.nodup_nil, nofun, inv.named, fun u log => keeps u (inv.joined u log),
    gone_snoc inv.stackFreed keeps last, gone_snoc inv.nodeFreed keeps last, nofun,
    fun t' u waits => (nobody t' u waits).elim, inv.sole, inv.joinsOnce, inv.reported,
    nodup_snoc inv.stackOnce inv.stackFreed own, nodup_snoc inv.nodeOnce inv.nodeFreed own⟩

theorem JoinInv.exit (inv : JoinInv s) {status : Status} (runs : s.live t = true)
    (alone : Alone s (.exit t status)) : JoinInv (s.exit t status) := by
  have alone := alone runs
  simp only [State.live, Bool.and_eq_true, Bool.not_eq_true'] at runs
  unfold State.exit
  split
  · rename_i last
    exact inv.destruct runs.1 (alone last)
  · rw [inv.findLast runs.1]
    dsimp only
    have own := mem_of_able runs.1
    have named := inv.named_setInfo { s.info t with hasExited := true, status := status } rfl
    have fresh : t ∉ s.joins.map Prod.fst := fun joined => (inv.joined t joined).1 own
    have idle := (of_decide_eq_true runs.1).2.2.1
    refine ⟨inv.nodup, inv.created, named, inv.joined, inv.stackFreed, inv.nodeFreed, ?_, ?_,
      inv.sole, inv.joinsOnce, ?_, inv.stackOnce, inv.nodeOnce⟩
    · intro u mem exited
      by_cases self : u = t
      · subst self
        rw [setInfo_self]
        exact Function.update_self ..
      · rw [setInfo_other self] at exited ⊢
        exact (Function.update_of_ne self ..).trans (inv.exited u mem exited)
    · intro t' u waits
      obtain ⟨mem, running, mem', joinedOn⟩ := inv.waiting t' u waits
      have waiter : t' ≠ t := fun same => by
        rw [same] at waits
        exact nomatch idle.symm.trans waits
      refine ⟨mem, ?_, mem', ?_⟩
      · rw [setInfo_other waiter]
        exact running
      · by_cases self : u = t
        · subst self
          rw [setInfo_self]
          exact joinedOn
        · rw [setInfo_other self]
          exact joinedOn
    · intro u reported joined
      have other : u ≠ t := fun same => fresh (same ▸ List.mem_map_of_mem joined)
      exact (Function.update_of_ne other ..).trans (inv.reported u reported joined)

end

theorem JoinInv.step {s : State} {input : Input} (inv : JoinInv s) (alone : Alone s input) :
    JoinInv (s.step input) := by
  refine step_cases s input inv ?_ ?_ (fun t _ _ => inv.resume t) ?_ (fun t => ?_) ?_
  · rintro t stack node tid rfl fresh
    exact inv.create node fresh
  · rintro t tid rfl runs
    exact inv.join runs alone
  · rintro t status rfl runs
    exact inv.exit runs alone
  · exact ⟨inv.nodup, inv.created, inv.named, inv.joined, inv.stackFreed, inv.nodeFreed,
      inv.exited, inv.waiting, inv.sole, inv.joinsOnce, inv.reported, inv.stackOnce, inv.nodeOnce⟩
  · rintro t rfl runs
    exact inv.destruct runs (alone runs)

theorem JoinInv.init (tid : Int) : JoinInv (.init tid) where
  nodup := List.nodup_singleton root
  created u mem := by
    rw [List.mem_singleton.mp mem]
    exact Nat.zero_lt_one
  named t lt u lt' _ _ := (Nat.lt_one_iff.mp lt).trans (Nat.lt_one_iff.mp lt').symm
  joined := nofun
  stackFreed := nofun
  nodeFreed := nofun
  exited := nofun
  waiting := nofun
  sole := nofun
  joinsOnce := List.nodup_nil
  reported := nofun
  stackOnce := List.nodup_nil
  nodeOnce := List.nodup_nil

/-! ### The condition is exact -/

/-- Somebody waits for every listed thread that is marked as joined on. -/
structure Marked (s : State) : Prop where
  nodup : s.chain.Nodup
  created : ∀ u ∈ s.chain, u < s.count
  waiter : ∀ u ∈ s.chain, (s.info u).isJoinedOn = true → ∃ t, s.waits t = some u

/-- What `destruct_each_thread` leaves alone. -/
theorem destructLoop_frame (n : Nat) (s : State) :
    (destructLoop n s).chain.Sublist s.chain ∧ (destructLoop n s).info = s.info ∧
      (destructLoop n s).waits = s.waits ∧ (destructLoop n s).count = s.count ∧
      s.stackFrees <+: (destructLoop n s).stackFrees := by
  induction n generalizing s with
  | zero => exact ⟨.refl _, rfl, rfl, rfl, List.prefix_rfl⟩
  | succ n ih =>
      unfold State.destructLoop
      cases s.chain.getLast? with
      | none => exact ⟨.refl _, rfl, rfl, rfl, List.prefix_rfl⟩
      | some last =>
          obtain ⟨chain, info, waits, count, frees⟩ := ih { s with
            chain := s.chain.erase (s.chain.dropLast.getLast?.getD last)
            stacksOut := s.stacksOut.erase (s.info last).stackSpace
            stackFrees := s.stackFrees ++ [last]
            nodeFrees := s.nodeFrees ++ [s.chain.dropLast.getLast?.getD last] }
          exact ⟨chain.trans List.erase_sublist, info, waits, count,
            (List.prefix_append _ _).trans frees⟩

section
variable {s : State} {t u : Thread}

theorem Marked.cleanup (marked : Marked s) (u : Thread) : Marked (s.cleanup u) :=
  ⟨marked.nodup.erase u, fun v kept => marked.created v (List.mem_of_mem_erase kept),
    fun v kept => marked.waiter v (List.mem_of_mem_erase kept)⟩

theorem Marked.resume (marked : Marked s) (t : Thread) : Marked (s.resume t) := by
  unfold State.resume
  cases waits : s.waits t with
  | none => exact marked
  | some u =>
      dsimp only
      split
      · have after := marked.cleanup u
        refine ⟨after.nodup, after.created, fun v kept joinedOn => ?_⟩
        obtain ⟨t', waits'⟩ := after.waiter v kept joinedOn
        -- the joiner that stops waiting has removed the record that it waited for
        have other : t' ≠ t := fun same => by
          have same : u = v := Option.some.inj (waits.symm.trans (same ▸ waits'))
          rw [← same] at kept
          exact marked.nodup.not_mem_erase kept
        exact ⟨t', (setWaits_other other none).trans waits'⟩
      · exact marked

theorem Marked.join (marked : Marked s) {tid : Int} (idle : s.waits t = none) :
    Marked (s.join t tid) := by
  unfold State.join
  cases s.find tid with
  | none => exact marked
  | some u =>
      dsimp only
      split
      · exact marked.cleanup u
      · split
        · exact marked
        · refine ⟨marked.nodup, marked.created, fun v mem joinedOn => ?_⟩
          by_cases self : v = u
          · exact ⟨t, self ▸ setWaits_self ..⟩
          · have before : (s.info v).isJoinedOn = true :=
              (congrArg ThreadInfo.isJoinedOn (setInfo_other self _)).symm.trans joinedOn
            obtain ⟨t', waits⟩ := marked.waiter v mem before
            have other : t' ≠ t := fun same => by
              rw [same, idle] at waits
              cases waits
            exact ⟨t', (setWaits_other other _).trans waits⟩

theorem Marked.create (marked : Marked s) (stack : Addr) (node : Bool) (tid : Int) :
    Marked (s.create stack node tid) := by
  have old (v : Thread) (mem : v ∈ s.chain) : (s.create stack node tid).info v = s.info v :=
    setInfo_other (Nat.ne_of_lt (marked.created v mem)) _
  have kept (v : Thread) (mem : v ∈ s.chain)
      (joinedOn : ((s.create stack node tid).info v).isJoinedOn = true) :
      ∃ t, s.waits t = some v := by
    rw [old v mem] at joinedOn
    exact marked.waiter v mem joinedOn
  cases node with
  | false => exact ⟨marked.nodup, fun v mem => Nat.lt_succ_of_lt (marked.created v mem), kept⟩
  | true =>
      refine ⟨List.nodup_append.mpr ⟨marked.nodup, List.nodup_singleton _, ?_⟩, fun v mem => ?_,
        fun v mem joinedOn => ?_⟩
      · rintro v mem w last rfl
        exact Nat.ne_of_lt (marked.created v mem) (List.mem_singleton.mp last)
      · rcases List.mem_append.mp mem with mem | last
        · exact Nat.lt_succ_of_lt (marked.created v mem)
        · rw [List.mem_singleton.mp last]
          exact Nat.lt_succ_self _
      · rcases List.mem_append.mp mem with mem | last
        · exact kept v mem joinedOn
        · rw [List.mem_singleton.mp last] at joinedOn
          have new := congrArg ThreadInfo.isJoinedOn
            (setInfo_self s s.count ⟨tid, stack, false, false, 0⟩)
          exact nomatch new.symm.trans joinedOn

theorem Marked.destruct (marked : Marked s) : Marked s.destructEachThread := by
  obtain ⟨chain, info, waits, count, -⟩ := destructLoop_frame s.chain.length s
  refine ⟨marked.nodup.sublist chain, fun v mem => ?_, fun v mem joinedOn => ?_⟩
  · exact lt_of_lt_of_eq (marked.created v (chain.subset mem)) count.symm
  · have before : (s.info v).isJoinedOn = true :=
      (congrArg (fun info => (info v).isJoinedOn) info).symm.trans joinedOn
    obtain ⟨t, waiting⟩ := marked.waiter v (chain.subset mem) before
    exact ⟨t, (congrFun waits t).trans waiting⟩

theorem Marked.exit (marked : Marked s) (t : Thread) (status : Status) :
    Marked (s.exit t status) := by
  unfold State.exit
  split
  · exact marked.destruct
  · cases s.findLast (s.info t).tid with
    | none => exact marked
    | some u =>
        refine ⟨marked.nodup, marked.created, fun v mem joinedOn => marked.waiter v mem ?_⟩
        dsimp only at joinedOn
        by_cases self : v = u
        · subst self
          rwa [setInfo_self] at joinedOn
        · rwa [setInfo_other self] at joinedOn

end

theorem Marked.step {s : State} (marked : Marked s) (input : Input) : Marked (s.step input) := by
  refine step_cases s input marked (fun _ stack node tid _ _ => marked.create stack node tid) ?_
    (fun t _ _ => marked.resume t) (fun t status _ _ => marked.exit t status)
    (fun _ => ⟨marked.nodup, marked.created, marked.waiter⟩) fun _ _ _ => marked.destruct
  intro t tid _ runs
  rw [State.live, Bool.and_eq_true] at runs
  exact marked.join (of_decide_eq_true runs.1).2.2.1

/-- With two records or more, the last stack is freed again. -/
theorem double_free {s : State} (nodup : s.chain.Nodup) (several : 2 ≤ s.chain.length) :
    ¬ s.destructEachThread.stackFrees.Nodup := by
  obtain ⟨front, node, last, chain⟩ : ∃ front node last, s.chain = front ++ [node] ++ [last] := by
    rcases List.eq_nil_or_concat s.chain with empty | ⟨init, last, chain⟩
    · rw [empty] at several
      exact absurd several (by decide)
    · rcases List.eq_nil_or_concat init with empty | ⟨front, node, rfl⟩
      · rw [chain, empty] at several
        exact absurd several (by decide : ¬ 2 ≤ 1)
      · exact ⟨front, node, last, by simpa using chain⟩
  have length : s.chain.length = front.length + 1 + 1 := by
    rw [chain, List.length_append, List.length_append]
    rfl
  rw [chain] at nodup
  obtain ⟨s₁, first, chain₁, frees₁⟩ := destructLoop_last (front.length + 1) chain
  rw [chain, List.getLast?_concat, Option.getD_some, erase_node nodup] at chain₁
  obtain ⟨s₂, second, -, frees₂⟩ := destructLoop_last front.length chain₁
  have twice : s₂.stackFrees <+: s.destructEachThread.stackFrees := by
    rw [State.destructEachThread, length, first, second]
    exact (destructLoop_frame front.length s₂).2.2.2.2
  rw [frees₂, frees₁] at twice
  intro once
  have again := once.sublist twice.sublist
  rw [List.append_assoc] at again
  exact absurd (List.nodup_append.mp again).2.1 (by simp)

/-- Outside the condition a thread is cleaned up while somebody waits for it, or the last
stack is freed twice. -/
theorem JoinedOnce.alone {s : State} {input : Input} (once : JoinedOnce (s.step input))
    (marked : Marked s) : Alone s input := by
  cases input with
  | join t tid =>
      intro runs u found exited
      by_contra joinedOn
      rw [Bool.not_eq_false] at joinedOn
      obtain ⟨t', waits⟩ := marked.waiter u (mem_of_find found) joinedOn
      have after : s.step (.join t tid) = s.cleanup u := by
        rw [State.step, if_pos runs, State.join, found]
        exact if_pos exited
      rw [after] at once
      have kept := (once.untouched u (.inr ⟨t', waits⟩)).1
      exact kept (List.mem_append_right _ (List.mem_singleton_self u))
  | exit t status =>
      intro runs last
      by_contra several
      have after : s.step (.exit t status) = s.destructEachThread := by
        rw [State.step, if_pos runs, State.exit, if_pos last]
      rw [after] at once
      exact double_free marked.nodup (Nat.lt_of_not_le several) once.stackFrees
  | crash t =>
      intro runs
      by_contra several
      have after : s.step (.crash t) = s.destructEachThread := if_pos runs
      rw [after] at once
      exact double_free marked.nodup (Nat.lt_of_not_le several) once.stackFrees
  | _ => exact trivial

theorem Marked.init (tid : Int) : Marked (.init tid) where
  nodup := List.nodup_singleton root
  created := (JoinInv.init tid).created
  waiter _ _ := nofun

/-- Every thread is joined and freed at most once in exactly the runs in which no one joins an
exited thread that somebody else is joining, and which end with one record left. -/
theorem joined_once_iff (tid : Int) (inputs : List Input) :
    Along State.step JoinedOnce (.init tid) inputs ↔
      StepsMeet State.step Alone (.init tid) inputs := by
  constructor
  · intro along
    have marked : Along State.step Marked (.init tid) inputs :=
      along_of_invariant (fun _ input marked => marked.step input) (Marked.init tid) inputs
    exact stepsMeet_of_along (fun _ _ before after => after.2.alone before.1) (along.and marked)
  · exact along_of_stepsMeet (fun _ inv => inv.once) (fun _ _ inv meets => inv.step meets)
      (JoinInv.init tid)

/-- The root thread waits for thread 1, which exits; before the root thread comes back,
thread 2 joins thread 1, and then the root thread joins it as well. -/
def overtaken : List Input :=
  [.create root (.made 100 true 11), .create root (.made 200 true 12), .join root 11, .exit 1 7,
    .join 2 11, .resume root]

theorem joined_twice : ¬ JoinedOnce (run State.step (.init 10) overtaken) :=
  fun once => absurd once.joins (by decide +kernel)

example : (run State.step (.init 10) overtaken).joins = [(1, 7), (1, 7)] := by decide +kernel

end OsKernel.Libthread
