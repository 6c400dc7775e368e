/-
The `TERMINATED` list while the other lists are edited.

A step of the loop that empties it, or a thread that is terminated, brings no other thread
into the list (`visited_step`). So what `Ends` says of the addresses of the threads in it
stays true: the TCBs of two threads lie apart as long as they are not freed, and a new TCB is
not made where a node of the list still points to.
-/

import OsKernel.Dispatch.Moves

namespace OsKernel.Drain

variable {s : State} {x t : Nat} {l : List Nat} {pc : Pc} {i : Input}

namespace Holds

/-- The nodes of the list point to one another. -/
theorem closed (h : Holds s l pc) : ∀ v, v ∈ l → s.links.next v ∈ l := by
  intro v mem
  by_cases place : ∃ old, pc = .unlinkPrevious old
  · obtain ⟨old, rfl⟩ := place
    exact h.fits.1.next_mem mem
  · exact (h.fits.ring fun old eq => place ⟨old, eq⟩).next_mem mem

theorem visited_eq (h : Holds s l pc) : s.visited = l := by
  by_cases place : ∃ old, pc = .unlinkPrevious old
  · obtain ⟨old, rfl⟩ := place
    have ring := h.fits.1
    unfold State.visited
    rw [h.head]
    cases l with
    | nil => rfl
    | cons a l =>
        have next : s.links.next = (s.unlinked old).next := rfl
        exact (Links.walk_congr next a s.count a).trans (ring.walk h.length)
  · exact h.visited (h.fits.ring fun old eq => place ⟨old, eq⟩)

end Holds

/-- Who is visited lies among nodes that hold the head and point to one another. -/
theorem mem_of_visited {S : Nat → Prop} (closed : ∀ v, S v → S (s.links.next v))
    (head : ∀ h, s.head = some h → S h) {u : Nat} (mem : u ∈ s.visited) : S u := by
  unfold State.visited at mem
  cases first : s.head with
  | none =>
      rw [first] at mem
      cases mem
  | some h =>
      rw [first] at mem
      exact Links.mem_walk closed (head h first) mem

/-- The nodes of the list point to one another after a step of the loop, too. -/
theorem closed_drain (h : Holds s l pc) (alive : s.terminated t = false) :
    (∀ v, v ∈ l → (s.drain t).links.next v ∈ l) ∧ ∀ a, (s.drain t).head = some a → a ∈ l := by
  have closed := h.closed
  have head : ∀ a, s.head = some a → a ∈ l := fun a eq => List.mem_of_head? (h.head.symm.trans eq)
  unfold State.drain
  cases place : s.pc t with
  | test | affirm =>
      dsimp only
      split <;> exact ⟨closed, head⟩
  | take =>
      dsimp only
      split <;> exact ⟨closed, head⟩
  | compare old =>
      dsimp only
      split
      · exact ⟨closed, head⟩
      · split <;> exact ⟨closed, head⟩
  | clear old => exact ⟨closed, by simp [State.goto]⟩
  | advance old =>
      dsimp only
      split
      · exact ⟨closed, head⟩
      · rename_i front first
        refine ⟨closed, fun a eq => ?_⟩
        obtain rfl : s.links.next front = a := by simpa [State.goto] using eq
        exact closed front (head front first)
  | unlinkNext old =>
      obtain rfl : pc = .unlinkNext old := by
        rw [← place]
        exact (h.inside.eq alive (by rw [place]; rfl)).1
      obtain ⟨ring, -, within⟩ := h.fits
      refine ⟨fun v mem => ?_, head⟩
      simp only [State.goto]
      by_cases back : v = s.links.previous old
      · rw [back, Function.update_self]
        rcases within with ⟨inList, -⟩ | ⟨-, out, -⟩
        · exact ring.next_mem inList
        · exact absurd (back ▸ mem) out
      · rw [Function.update_of_ne back]
        exact closed v mem
  | out | unlinkPrevious old | free old => exact ⟨closed, head⟩

/-- A thread that is terminated brings no other one into the list. -/
theorem visited_terminate (h : Holds s l pc) : ∀ u ∈ (s.terminate x).visited, u ∈ l ∨ u = x := by
  have closed := h.closed
  have head : ∀ a, s.head = some a → a ∈ l := fun a eq => List.mem_of_head? (h.head.symm.trans eq)
  intro u mem
  rw [State.terminate] at mem
  split at mem
  · rw [h.visited_eq] at mem
    split at mem
    · exact .inl (h.visited_eq ▸ mem)
    · rename_i front first
      split at mem
      · rename_i inList
        have nextIn := closed x inList
        refine .inl (mem_of_visited (S := (· ∈ l)) (fun v hv => ?_) (fun a eq => ?_) mem)
        · dsimp only
          rcases Links.place_next (s.links.unlink x) x front v with same | same | same
          · rw [same]
            rcases Links.unlink_next s.links x v with old | old
            · rw [old]
              exact closed v hv
            · rw [old]
              exact nextIn
          · rw [same]
            exact head front first
          · rw [same]
            exact inList
        · dsimp only at eq
          split_ifs at eq with here
          · rw [← Option.some.inj eq]
            exact closed front (head front first)
          · rw [← Option.some.inj eq]
            exact head front first
      · exact .inl (h.visited_eq ▸ mem)
  · refine mem_of_visited (S := fun v => v ∈ l ∨ v = x) (fun v hv => ?_) (fun a eq => ?_) mem
    · dsimp only
      cases first : s.head with
      | none =>
          by_cases self : v = x
          · simp [Links.pushBack, Links.single, self]
          · simpa [Links.pushBack, Links.single, self] using .inl (closed v (hv.resolve_right self))
      | some front =>
          rw [Links.pushBack]
          rcases Links.insertBefore_next s.links x front v with ⟨other, same⟩ | same | same
          · rw [same]
            exact .inl (closed v (hv.resolve_right other))
          · rw [same]
            exact .inl (head front first)
          · exact .inr same
    · cases first : s.head with
      | none => exact .inr (by simpa [first] using eq.symm)
      | some front =>
          obtain rfl : front = a := by simpa [first] using eq
          exact .inl (head front first)

theorem visited_step (inv : Inv s) {u : Nat} (mem : u ∈ (step s i).visited) :
    u ∈ s.visited ∨ i = .terminate u := by
  obtain ⟨l, pc, h⟩ := inv
  rw [h.visited_eq]
  cases i with
  | drain t =>
      by_cases alive : s.terminated t = false
      · obtain ⟨closed, head⟩ := closed_drain h alive
        rw [step, if_neg (by simp [alive])] at mem
        exact .inl (mem_of_visited (S := (· ∈ l)) closed head mem)
      · rw [step, if_pos (by simpa using alive), h.visited_eq] at mem
        exact .inl mem
  | terminate x =>
      rcases visited_terminate h u mem with old | new
      · exact .inl old
      · exact .inr (by rw [new])

theorem terminated_terminate : (s.terminate x).terminated = Function.update s.terminated x true := by
  rw [State.terminate]
  split
  · rename_i listed
    have same : Function.update s.terminated x true = s.terminated := by
      rw [← listed, Function.update_eq_self]
    rw [same]
    split
    · rfl
    · split <;> rfl
  · rfl

theorem terminated_drain : (s.drain t).terminated = s.terminated := by
  unfold State.drain
  cases s.pc t with
  | test | affirm | take | advance old => dsimp only; split <;> rfl
  | compare old =>
      dsimp only
      split
      · rfl
      · split <;> rfl
  | _ => rfl

end OsKernel.Drain

namespace OsKernel.Dispatch

open OsKernel.Sched

variable {s s' : State} {t x : Thread} {p : Nat} {i : Drain.Input} {d : Data} {l : List Thread}

/-- Who is in the list was made. -/
theorem Ends.visited_made (ends : Ends s) (regions : Regions s) {u : Thread}
    (mem : u ∈ s.drain.visited) : u < s.made := by
  obtain ⟨l, pc, h⟩ := ends.inv
  rw [h.visited_eq] at mem
  by_contra late
  exact (regions.fresh u (Nat.le_of_not_lt late)).2.1 ((ends.ended u).mp (h.good u mem).1)

/-- The list of terminated threads stays as it is; TCBs may be freed. -/
theorem Ends.frame (ends : Ends s) (drain : s'.drain = s.drain) (made : s'.made = s.made)
    (address : s'.address = s.address) (kept : ∀ t, s'.tcbFreed t = false → s.tcbFreed t = false)
    (ended : ∀ t, (s'.tcb t).state = .terminated ↔ (s.tcb t).state = .terminated) : Ends s' where
  inv := drain ▸ ends.inv
  ended t := by rw [drain, ended, ends.ended]
  apart t u madeT madeU keptT keptU same := by
    rw [made] at madeT madeU
    rw [address] at same
    exact ends.apart t u madeT madeU (kept t keptT) (kept u keptU) same
  stale u mem t madeT keptT := by
    rw [drain] at mem
    rw [made] at madeT
    rw [address]
    exact ends.stale u mem t madeT (kept t keptT)

/-- A step of the loop, or a thread that is terminated. -/
theorem Ends.step (ends : Ends s) (apart : Drain.Apart s.drain i)
    (drain : s'.drain = Drain.step s.drain i) (made : s'.made = s.made)
    (address : s'.address = s.address) (freed : s'.tcbFreed = s.tcbFreed)
    (ended : ∀ t, (s'.tcb t).state = .terminated ↔ (s.tcb t).state = .terminated ∨ i = .terminate t)
    (own : ∀ x, i = .terminate x → x < s.made ∧ s.tcbFreed x = false) : Ends s' where
  inv := drain ▸ ends.inv.step apart
  ended t := by
    rw [drain, ended, ← ends.ended]
    cases i with
    | drain u =>
        rw [Drain.step]
        split_ifs
        · simp
        · rw [Drain.terminated_drain]
          simp
    | terminate x =>
        rw [Drain.step, Drain.terminated_terminate]
        by_cases self : t = x
        · simp [self]
        · simp [self, Ne.symm self]
  apart t u := by
    rw [made, address, freed]
    exact ends.apart t u
  stale u mem t madeT keptT other := by
    rw [drain] at mem
    rw [made] at madeT
    rw [freed] at keptT
    rw [address]
    rcases Drain.visited_step ends.inv mem with old | new
    · exact ends.stale u old t madeT keptT other
    · obtain ⟨madeU, keptU⟩ := own u new
      exact fun same => other (ends.apart t u madeT madeU keptT keptU same)

/-- A new TCB that does not lie where a node of the list points to. -/
theorem Ends.make (ends : Ends s) (regions : Regions s) (room : s.room d.address = true)
    (away : d.address ∉ s.drain.visited.map s.address) : Ends (s.make t p d l) := by
  have other : ∀ u, u < s.made → Function.update s.address s.made d.address u = s.address u :=
    fun u old => Function.update_of_ne (Nat.ne_of_lt old) ..
  have free : ∀ u, u < s.made → s.tcbFreed u = false → s.address u ≠ d.address := by
    intro u old kept
    have all := List.all_eq_true.mp room u (List.mem_range.mpr old)
    simpa [kept] using all
  refine ⟨ends.inv, fun u => ?_, fun u v madeU madeV keptU keptV same => ?_, fun u mem v madeV keptV ne => ?_⟩
  · simp only [State.make, ends.ended]
    change (s.tcb u).state = .terminated ↔ (Function.update s.tcb s.made _ u).state = .terminated
    by_cases new : u = s.made
    · subst new
      simpa using (regions.fresh s.made (Nat.le_refl _)).2.1
    · rw [Function.update_of_ne new]
  · simp only [State.make] at same madeU madeV
    by_cases newU : u = s.made
    · by_cases newV : v = s.made
      · rw [newU, newV]
      · have oldV : v < s.made := by omega
        rw [newU, Function.update_self, other v oldV] at same
        exact absurd same.symm (free v oldV keptV)
    · have oldU : u < s.made := by omega
      by_cases newV : v = s.made
      · rw [newV, Function.update_self, other u oldU] at same
        exact absurd same (free u oldU keptU)
      · have oldV : v < s.made := by omega
        rw [other u oldU, other v oldV] at same
        exact ends.apart u v oldU oldV keptU keptV same
  · have oldU := ends.visited_made regions mem
    simp only [State.make] at madeV ⊢
    rw [other u oldU]
    by_cases newV : v = s.made
    · rw [newV, Function.update_self]
      exact fun same => away (same ▸ List.mem_map_of_mem mem)
    · have oldV : v < s.made := by omega
      rw [other v oldV]
      exact ends.stale u mem v oldV keptV ne

end OsKernel.Dispatch
