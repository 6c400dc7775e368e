/-
What the operations of the scheduler do.

One lemma for each: it keeps `Rows`, it is one of the `Moves`, and it gives these TCBs. The
lists are read through `Rows` only: what stands in a list is a listed thread of its state.
-/

import OsKernel.Dispatch.Invariant

namespace OsKernel.Dispatch

open OsKernel.Sched

variable {s s' : State} {t u r : Thread} {state : ThreadState} {detail : Option BlockingDetail}

/-! ### What is in the lists -/

theorem Rows.enough {k : Threads} (lined : Lined k s.Listed) (i : ListIdx) :
    (k.lists i).length ≤ s.made := by
  have sub : k.lists i ⊆ List.range s.made := fun u mem =>
    List.mem_range.mpr ((lined.mem i u).mp mem).1.1.made
  simpa using (List.subperm_of_subset (lined.nodup i) sub).length_le

theorem Rows.mem_nodes (rows : Rows s) (i : ListIdx) :
    u ∈ s.live.nodes s.made i ↔ s.Listed u ∧ (s.tcb u).listIdx = i := by
  obtain ⟨k, shows, lined⟩ := rows
  rw [shows.nodes (Rows.enough lined), lined.mem, State.tcb, shows.tcb]

theorem Rows.head (rows : Rows s) {i : ListIdx} (head : s.live.threadLists i = some u) :
    s.Listed u ∧ (s.tcb u).listIdx = i := by
  obtain ⟨k, shows, lined⟩ := rows
  rw [shows.head] at head
  have mem := (lined.mem i u).mp (List.mem_of_mem_head? head)
  rwa [State.tcb, shows.tcb]

/-- The thread that runs is at the head of its list. -/
theorem Rows.running (rows : Rows s) (one : One s r) : s.running = some r := by
  obtain ⟨k, shows, lined⟩ := rows
  have tcb : ∀ u, s.tcb u = k.tcb u := fun u => by rw [State.tcb, shows.tcb]
  have idx : ∀ u, (k.tcb u).listIdx = .state .running ↔ (s.tcb u).state = .running := by
    intro u
    rw [← tcb, Tcb.listIdx]
    split_ifs with waits <;> simp [waits]
  have row := lined.singleton ⟨one.listed, (idx r).mpr one.running⟩
    fun u listed here => one.only u listed ((idx u).mp here)
  rw [State.running, shows.head, row]
  rfl

theorem One.of_running (rows : Rows s) (one : One s r) (running : s.running = some t) : One s t := by
  rw [rows.running one, Option.some.injEq] at running
  rwa [← running]

/-! ### `alter_state` -/

/-- Another state for thread `t`. -/
structure Altered (s s' : State) (t : Thread) (state : ThreadState)
    (detail : Option BlockingDetail) : Prop where
  rows : Rows s'
  moves : Moves s s'
  tcb : s'.tcb = Function.update s.tcb t (altered (s.tcb t) state detail)

theorem listed_congr (same : ∀ u, s'.Counts u ↔ s.Counts u)
    (ended : ∀ u, (s'.tcb u).state = .terminated ↔ (s.tcb u).state = .terminated) :
    s'.Listed u ↔ s.Listed u := by
  rw [State.Listed, State.Listed, same, ne_eq, ne_eq, ended u]

/-- A listed thread alone has a new state. -/
theorem frame_of_update (listed : s.Listed t)
    (tcb : s'.tcb = Function.update s.tcb t (altered (s.tcb t) state detail)) :
    (∀ u, (s'.tcb u).pcb = (s.tcb u).pcb) ∧ ∀ u, ¬ s.Listed u → s'.tcb u = s.tcb u := by
  refine ⟨fun u => ?_, fun u out => ?_⟩
  · rw [tcb]
    by_cases self : u = t
    · subst self
      rw [Function.update_self]
      rfl
    · rw [Function.update_of_ne self]
  · have other : u ≠ t := by
      rintro rfl
      exact out listed
    rw [tcb, Function.update_of_ne other]

theorem Rows.alter (rows : Rows s) (listed : s.Listed t) (target : state ≠ .new)
    (goesOn : state ≠ .terminated) (given : state = .waiting → detail ≠ none)
    (apart : (altered (s.tcb t) state detail).listIdx ≠ (s.tcb t).listIdx)
    (alone : (altered (s.tcb t) state detail).listIdx = .reason .readline →
      (altered (s.tcb t) state detail).detail.firstReader = true →
      ∀ u, s.Listed u → (s.tcb u).listIdx = .reason .readline →
        (s.tcb u).detail.firstReader = false) :
    Altered s (s.alter t state detail) t state detail ∧
      (s.alter t state detail).drain = s.drain ∧
      (∀ u, (s.alter t state detail).Listed u ↔ s.Listed u) := by
  obtain ⟨k, shows, lined⟩ := rows
  have same : s.tcb = k.tcb := shows.tcb
  rw [same] at apart alone
  obtain ⟨lined', tcbs, done⟩ := lined.alter listed target goesOn given apart alone
  obtain ⟨k', moved⟩ := Option.isSome_iff_exists.mp done
  have rel : Option.Rel Rings.Shows (s.live.alterState s.made t state detail)
      (k.alterState t state detail) := shows.alterState lined.wellFormed (Rows.enough lined)
  rw [Threads.alter, moved, Option.getD_some] at lined' tcbs
  rw [moved] at rel
  cases result : s.live.alterState s.made t state detail with
  | none => rw [result] at rel; cases rel
  | some live =>
      rw [result] at rel
      obtain shows' : live.Shows k' := by cases rel; assumption
      have eq : s.alter t state detail = { s with live := live } := by
        rw [State.alter, if_neg goesOn, result, Option.getD_some]
      rw [eq]
      have tcb : State.tcb { s with live := live } =
          Function.update s.tcb t (altered (s.tcb t) state detail) := by
        rw [same, ← tcbs]
        exact shows'.tcb
      have ends : ∀ u, (State.tcb { s with live := live } u).state = .terminated ↔
          (s.tcb u).state = .terminated := by
        intro u
        rw [tcb]
        by_cases self : u = t
        · subst self
          rw [Function.update_self]
          exact iff_of_false goesOn listed.2
        · rw [Function.update_of_ne self]
      have counts : ∀ u, State.Counts { s with live := live } u ↔ s.Counts u := fun u =>
        ⟨fun h => ⟨h.1, h.2, h.3⟩, fun h => ⟨h.1, h.2, h.3⟩⟩
      have lists : ∀ u, State.Listed { s with live := live } u ↔ s.Listed u :=
        fun u => listed_congr counts ends
      obtain ⟨pcb, others⟩ := frame_of_update listed tcb
      exact ⟨⟨⟨k', shows', lined'.congr lists⟩,
        ⟨rfl, rfl, rfl, rfl, rfl, rfl, rfl, rfl, rfl, rfl, pcb, others⟩, tcb⟩, rfl, lists⟩

/-- A listed thread is terminated. -/
theorem Rows.terminate (rows : Rows s) (listed : s.Listed t) :
    Altered s (s.terminate t) t .terminated none ∧
      (s.terminate t).drain = s.drain.terminate t ∧
      ∀ u, (s.terminate t).Listed u ↔ s.Listed u ∧ u ≠ t := by
  have found := (rows.mem_nodes (u := t) (s.tcb t).listIdx).mpr ⟨listed, rfl⟩
  obtain ⟨k, shows, lined⟩ := rows
  have same : s.tcb = k.tcb := shows.tcb
  have old := (lined.kept t listed).1
  rw [← same] at old
  have mem : t ∈ k.lists (k.tcb t).listIdx := (lined.mem _ t).mpr ⟨listed, rfl⟩
  have search : (s.live.nodes s.made (s.tcb t).listIdx).find? (fun u => u = t) ≠ none := by
    intro none
    simpa using List.find?_eq_none.mp none t found
  have eq : s.terminate t = { s with live := s.live.ended t, drain := s.drain.terminate t } := by
    rw [State.terminate, if_neg listed.2, if_neg (by tauto)]
  rw [eq]
  have tcb : State.tcb { s with live := s.live.ended t, drain := s.drain.terminate t } =
      Function.update s.tcb t (altered (s.tcb t) .terminated none) := rfl
  have counts : ∀ u, State.Counts { s with live := s.live.ended t, drain := s.drain.terminate t } u ↔
      s.Counts u := fun u => ⟨fun h => ⟨h.1, h.2, h.3⟩, fun h => ⟨h.1, h.2, h.3⟩⟩
  have lists : ∀ u, State.Listed { s with live := s.live.ended t, drain := s.drain.terminate t } u ↔
      s.Listed u ∧ u ≠ t := by
    intro u
    rw [State.Listed, counts, tcb]
    by_cases self : u = t
    · subst self
      simp [altered]
    · rw [Function.update_of_ne self]
      simp [State.Listed, self]
  obtain ⟨pcb, others⟩ := frame_of_update listed tcb
  exact ⟨⟨⟨k.ended t, shows.ended lined.wellFormed mem, lined.ended listed lists⟩,
    ⟨rfl, rfl, rfl, rfl, rfl, rfl, rfl, rfl, rfl, rfl, pcb, others⟩, tcb⟩, rfl, lists⟩

/-! ### Round robin -/

theorem Rows.roundRobin (rows : Rows s) :
    Rows s.roundRobin.1 ∧ Moves s s.roundRobin.1 ∧ s.roundRobin.1.tcb = s.tcb ∧
      s.roundRobin.1.drain = s.drain ∧
      ∀ u, s.roundRobin.2 = some u → s.Listed u ∧ (s.tcb u).state = .ready := by
  have head := fun u => rows.head (u := u) (i := .state .ready)
  obtain ⟨k, shows, lined⟩ := rows
  obtain ⟨shows', found⟩ := shows.roundRobin (Rows.enough lined)
  have tcb : s.roundRobin.1.tcb = s.tcb := shows'.tcb.trans shows.tcb.symm
  have counts : ∀ u, s.roundRobin.1.Counts u ↔ s.Counts u :=
    fun u => ⟨fun h => ⟨h.1, h.2, h.3⟩, fun h => ⟨h.1, h.2, h.3⟩⟩
  have lists : ∀ u, s.roundRobin.1.Listed u ↔ s.Listed u :=
    fun u => listed_congr counts fun u => by rw [tcb]
  refine ⟨⟨k.roundRobin.1, shows', lined.roundRobin.congr lists⟩, ?_, tcb, rfl, fun u eq => ?_⟩
  · exact ⟨rfl, rfl, rfl, rfl, rfl, rfl, rfl, rfl, rfl, rfl, fun u => by rw [tcb], fun u _ => by rw [tcb]⟩
  · have first : s.live.threadLists (.state .ready) = some u := by
      rw [shows.head]
      rw [State.roundRobin] at eq
      exact found.symm.trans eq
    obtain ⟨listed, idx⟩ := head u first
    refine ⟨listed, ?_⟩
    rw [Tcb.listIdx] at idx
    split_ifs at idx
    simpa using idx

/-- The lock of its process shows a thread of it that no TCB is being set up there. -/
theorem Regions.counts_of_mem (regions : Regions s) (counts : s.Counts t)
    (held : s.owner (s.tcb t).pcb = some t) (idle : (s.pc t).builds = none)
    (mem : u ∈ s.tcbList (s.tcb t).pcb) : s.Counts u := by
  obtain ⟨made, kept, pcb⟩ := regions.tcbs _ u mem
  refine ⟨made, kept, ?_⟩
  rintro ⟨v, builds⟩
  cases place : s.pc v with
  | made x =>
      obtain rfl : x = u := by simpa [place, Pc.builds] using builds
      have owner := regions.holders v (by rw [place]; rfl)
      rw [← (regions.made v x place).1, pcb, held, Option.some.injEq] at owner
      rw [owner, place] at idle
      cases idle
  | forked c x =>
      obtain rfl : x = u := by simpa [place, Pc.builds] using builds
      have own := (regions.tcbs c x (by rw [regions.forked v c x place]; simp)).2.2
      exact (regions.children v c (by rw [place]; rfl)).empty t counts (pcb.symm.trans own)
  | _ => simp [place, Pc.builds] at builds

theorem Rows.findNextThread (rows : Rows s) (regions : Regions s) (counts : s.Counts t)
    (held : s.owner (s.tcb t).pcb = some t) (idle : (s.pc t).builds = none) :
    Rows (s.findNextThread t).1 ∧ Moves s (s.findNextThread t).1 ∧
      (s.findNextThread t).1.tcb = s.tcb ∧ (s.findNextThread t).1.drain = s.drain ∧
      ∀ u, (s.findNextThread t).2 = some u → s.Listed u ∧ (s.tcb u).state = .ready := by
  rw [State.findNextThread]
  cases found : (s.tcbList (s.tcb t).pcb).find? fun u => (s.tcb u).state = .ready with
  | none => exact rows.roundRobin
  | some u =>
      refine ⟨rows, Moves.refl s, rfl, rfl, fun v eq => ?_⟩
      obtain rfl : u = v := by simpa using eq
      have ready : (s.tcb u).state = .ready := by simpa using List.find?_some found
      have mem := List.mem_of_find?_eq_some found
      exact ⟨⟨regions.counts_of_mem counts held idle mem, by simp [ready]⟩, ready⟩

/-! ### Switches -/

/-- The processor goes from `r` to `u`. -/
structure Switched (s s' : State) (r u : Thread) (state : ThreadState)
    (detail : Option BlockingDetail) : Prop where
  rows : Rows s'
  one : One s' u
  moves : Moves s s'
  tcb : s'.tcb = Function.update (Function.update s.tcb r (altered (s.tcb r) state detail)) u
    (altered (s.tcb u) .running none)
  other : u ≠ r

theorem listIdx_running {tcb : Tcb} : tcb.listIdx = .state .running ↔ tcb.state = .running := by
  rw [Tcb.listIdx]
  split_ifs with waits <;> simp [waits]

/-- The second half of a switch: nobody runs, and `u` is taken from its list. -/
theorem Altered.run {s₁ : State} (first : Altered s s₁ r state detail) (one : One s r)
    (listed : s₁.Listed u) (other : u ≠ r) (idle : state ≠ .running) :
    Switched s (s₁.alter u .running none) r u state detail ∧
      (s₁.alter u .running none).drain = s₁.drain := by
  have tcb : s₁.tcb u = s.tcb u := by rw [first.tcb, Function.update_of_ne other]
  have old := first.moves.listed listed
  have waits : (s.tcb u).state ≠ .running := fun runs => other (one.only u old runs)
  obtain ⟨second, drain, lists⟩ :
      Altered s₁ (s₁.alter u .running none) u .running none ∧ _ ∧ _ :=
    first.rows.alter listed (by decide) (by decide) (by simp)
      (by
        rw [tcb, Ne, eq_comm, show (altered (s.tcb u) .running none).listIdx = .state .running from rfl,
          listIdx_running]
        exact waits)
      (by simp [altered, Tcb.listIdx])
  have tcbs := second.tcb
  rw [tcb, first.tcb] at tcbs
  refine ⟨⟨second.rows, ⟨(lists u).mpr listed, ?_, fun v listed' runs => ?_⟩,
    first.moves.trans second.moves, ?_, other⟩, drain⟩
  · rw [tcbs, Function.update_self]
    rfl
  · by_contra ne
    rw [tcbs, Function.update_of_ne ne] at runs
    by_cases self : v = r
    · subst self
      rw [Function.update_self] at runs
      exact idle runs
    · rw [Function.update_of_ne self] at runs
      exact self (one.only v (first.moves.listed ((lists v).mp listed')) runs)
  · exact tcbs

theorem switchContext_eq (running : s.running = some r) (given : state = .waiting → detail ≠ none) :
    s.switchContext u state detail = (s.alter r state detail).alter u .running none := by
  rw [State.switchContext, if_neg (by tauto), running]

/-- The thread that runs becomes runnable or blocks, and `u` runs. -/
theorem Rows.switch (rows : Rows s) (one : One s r) (listed : s.Listed u)
    (waits : (s.tcb u).state ≠ .running) (target : state ≠ .new) (goesOn : state ≠ .terminated)
    (idle : state ≠ .running) (given : state = .waiting → detail ≠ none)
    (alone : (altered (s.tcb r) state detail).listIdx = .reason .readline →
      (altered (s.tcb r) state detail).detail.firstReader = true →
      ∀ u, s.Listed u → (s.tcb u).listIdx = .reason .readline →
        (s.tcb u).detail.firstReader = false) :
    Switched s (s.switchContext u state detail) r u state detail ∧
      (s.switchContext u state detail).drain = s.drain := by
  have other : u ≠ r := by
    rintro rfl
    exact waits one.running
  obtain ⟨first, drain, lists⟩ := rows.alter one.listed target goesOn given
    (by
      rw [Ne, listIdx_running.mpr one.running, listIdx_running]
      exact idle) alone
  obtain ⟨switched, same⟩ := first.run one ((lists u).mpr listed) other idle
  rw [switchContext_eq (rows.running one) given]
  exact ⟨switched, same.trans drain⟩

/-- The thread that runs ends, and `u` runs. -/
theorem Rows.exit (rows : Rows s) (one : One s r) (listed : s.Listed u)
    (waits : (s.tcb u).state ≠ .running) :
    Switched s (s.switchContext u .terminated none) r u .terminated none ∧
      (s.switchContext u .terminated none).drain = s.drain.terminate r := by
  have other : u ≠ r := by
    rintro rfl
    exact waits one.running
  obtain ⟨first, drain, lists⟩ := rows.terminate one.listed
  obtain ⟨switched, same⟩ := first.run one ((lists u).mpr ⟨listed, other⟩) other (by decide)
  have ends : s.alter r .terminated none = s.terminate r := if_pos rfl
  rw [switchContext_eq (rows.running one) (by simp), ends]
  exact ⟨switched, same.trans drain⟩

end OsKernel.Dispatch
