/-
Who is between acquiring `input_lock` and releasing it.

Most steps bring nobody in: `Readers.step`. A thread enters when nobody is inside
(`Readers.enter`), and who was switched to by the last one that left is alone. Only a thread
inside blocks as a first reader, so the keyboard never wakes up one that waits for the lock.
-/

import OsKernel.Dispatch.Moves

namespace OsKernel.Dispatch

open OsKernel.Sched

variable {s s' : State} {t u r : Thread} {state : ThreadState} {detail : Option BlockingDetail}

/-- A step in which at most thread `t` goes on and blocks. Another one stays as it is, or it is
not made a reader. -/
theorem Readers.step (readers : Readers s) (pc : ∀ u, u ≠ t → s'.pc u = s.pc u)
    (inside : (s'.pc t).inside = true → (s.pc t).inside = true)
    (stays : s.inputLocked = false → s'.inputLocked = false)
    (free : s'.inputLocked = false → ∀ u, (s'.pc u).inside = false)
    (first : s'.Listed t → (s'.tcb t).listIdx = .reason .readline →
      (s'.tcb t).detail.firstReader = true → (s'.pc t).inside = true)
    (blocked : s'.Listed t → s'.pc t = .blocked → (s'.tcb t).listIdx = .reason .readline)
    (others : ∀ u, u ≠ t → s'.Listed u → s.Listed u ∧ s'.tcb u = s.tcb u ∨
      (s'.tcb u).listIdx ≠ .reason .readline ∧
        (s'.pc u = .blocked → (s'.tcb u).state = .running ∧ s'.inputLocked = false)) :
    Readers s' := by
  have was : ∀ v, (s'.pc v).inside = true → (s.pc v).inside = true := by
    intro v within
    by_cases self : v = t
    · subst self
      exact inside within
    · rwa [pc v self] at within
  refine ⟨fun v w hv hw => readers.alone v w (was v hv) (was w hw), free, fun v listed idx isFirst => ?_,
    fun v listed place => ?_⟩
  · by_cases self : v = t
    · subst self
      exact first listed idx isFirst
    · rcases others v self listed with ⟨old, same⟩ | ⟨other, -⟩
      · rw [same] at idx isFirst
        rw [pc v self]
        exact readers.first v old idx isFirst
      · exact absurd idx other
  · by_cases self : v = t
    · subst self
      exact .inl (blocked listed place)
    · rcases others v self listed with ⟨old, same⟩ | ⟨-, woken⟩
      · rw [pc v self] at place
        rw [same]
        exact (readers.blocked v old place).imp_right fun woken => ⟨woken.1, stays woken.2⟩
      · exact .inr (woken place)

/-- The thread that runs takes the lock, which was free. -/
theorem Readers.enter (readers : Readers s) (one : One s t) (open' : s.inputLocked = false)
    (pc : ∀ u, u ≠ t → s'.pc u = s.pc u) (locked : s'.inputLocked = true)
    (place : s'.pc t ≠ .blocked) (listed : ∀ u, s'.Listed u → s.Listed u) (tcb : s'.tcb = s.tcb) :
    Readers s' := by
  have nobody := readers.free open'
  have only : ∀ v, (s'.pc v).inside = true → v = t := by
    intro v within
    by_contra other
    rw [pc v other, nobody v] at within
    cases within
  refine ⟨fun v w hv hw => (only v hv).trans (only w hw).symm, fun free => ?_,
    fun v here idx isFirst => ?_, fun v here waits => ?_⟩
  · rw [locked] at free
    cases free
  · rw [tcb] at idx isFirst
    have within := readers.first v (listed v here) idx isFirst
    rw [nobody v] at within
    cases within
  · have other : v ≠ t := by
      rintro rfl
      exact place waits
    rw [pc v other] at waits
    rw [tcb]
    refine .inl ((readers.blocked v (listed v here) waits).resolve_right fun woken => ?_)
    exact other (one.only v (listed v here) woken.1)

/-- A thread that is not a reader becomes runnable. -/
theorem Readers.altered (readers : Readers s) (done : Altered s s' t .ready none)
    (waits : (s.tcb t).listIdx ≠ .reason .readline) (idle : (s.tcb t).state ≠ .running) :
    Readers s' := by
  have self : (s'.tcb t).listIdx ≠ .reason .readline := by
    rw [done.tcb, Function.update_self]
    simp [Dispatch.altered, Tcb.listIdx]
  refine readers.step (t := t) (fun u _ => by rw [done.moves.pc]) (by rw [done.moves.pc]; exact id)
    (by rw [done.moves.inputLocked]; exact id)
    (by rw [done.moves.pc, done.moves.inputLocked]; exact readers.free) (fun _ idx => absurd idx self)
    (fun listed place => ?_) fun u other listed => .inl ⟨done.moves.listed listed, ?_⟩
  · rw [done.moves.pc] at place
    rcases readers.blocked t (done.moves.listed listed) place with reads | ⟨runs, -⟩
    · exact absurd reads waits
    · exact absurd runs idle
  · rw [done.tcb, Function.update_of_ne other]

/-- A switch from a thread that does not wait for the lock. Who is switched to waits for it
only if it is free. -/
theorem Readers.switched (readers : Readers s) (done : Switched s s' r u state detail)
    (acts : s.pc r ≠ .blocked) (given : state = .waiting → detail ≠ none)
    (first : state = .waiting → detail = some (.readline true) → (s.pc r).inside = true)
    (turn : s.pc u = .blocked → s.inputLocked = false) : Readers s' := by
  have pc : ∀ v, s'.pc v = s.pc v := fun v => by rw [done.moves.pc]
  have runs : (s'.tcb u).state = .running := done.one.running
  have left : s'.tcb r = Dispatch.altered (s.tcb r) state detail := by
    rw [done.tcb, Function.update_of_ne done.other.symm, Function.update_self]
  refine readers.step (t := r) (fun v _ => pc v) (by rw [pc]; exact id)
    (by rw [done.moves.inputLocked]; exact id)
    (by simp only [pc, done.moves.inputLocked]; exact readers.free) (fun _ idx isFirst => ?_)
    (fun _ place => absurd (pc r ▸ place) acts) fun v other listed => ?_
  · rw [left] at idx isFirst
    obtain ⟨b, rfl, rfl⟩ := altered_readline idx given
    obtain rfl : b = true := isFirst
    rw [pc]
    exact first rfl rfl
  · by_cases self : v = u
    · subst self
      refine .inr ⟨?_, fun place => ⟨runs, ?_⟩⟩
      · rw [listIdx_running.mpr runs]
        simp
      · rw [done.moves.inputLocked]
        exact turn (pc v ▸ place)
    · refine .inl ⟨done.moves.listed listed, ?_⟩
      rw [done.tcb, Function.update_of_ne self, Function.update_of_ne other]

end OsKernel.Dispatch
