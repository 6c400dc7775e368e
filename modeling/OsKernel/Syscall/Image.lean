/-
The loader never stores into the zero frame, whatever that frame holds.

`Off` is what the loader keeps about its directory: the pages of `S` are not on the
zero frame, those that are available lie in `A`, and the zero frame has the contents it
had in `m₀`. The argument is the one for the memory model, without its invariant: it
needs no more than that frames are exclusive.
-/

import OsKernel.Syscall.NewPages

namespace OsKernel.Syscall

open OsKernel.Vm OsKernel.Memory Prog Sys

/-- The contents of the zero frame are those of `m₀`. -/
structure ZeroKept (m₀ m : Mem) : Prop where
  wf : m.vm.abs.Wf
  zero : ∀ off < pageSize, m.phys (zeroFrame + off) = m₀.phys (zeroFrame + off)

/-- And no page of `S` is on the zero frame. -/
structure Off (d : Nat) (m₀ : Mem) (S A : Nat → Prop) (m : Mem) : Prop extends ZeroKept m₀ m where
  clean : Clean S A (m.state d)

section
variable {d page : Nat} {m₀ m m' : Mem} {S A S' A' : Nat → Prop}

theorem Off.mono (h : Off d m₀ S A m) (sub : ∀ q, S' q → S q) (sup : ∀ q, A q → A' q) :
    Off d m₀ S' A' m :=
  ⟨h.toZeroKept, h.clean.mono sub sup⟩

theorem ZeroKept.same (h : ZeroKept m₀ m) (same : Same d m m') : ZeroKept m₀ m' :=
  ⟨same.within.wf, fun off hoff => by rw [same.phys, h.zero off hoff]⟩

theorem Off.same (h : Off d m₀ S A m) (same : Same d m m') : Off d m₀ S A m' :=
  ⟨h.toZeroKept.same same, (funext same.state : m'.state d = m.state d) ▸ h.clean⟩

/-- A page was put into a new state. -/
theorem Off.put {exact : Prop} {state : PageState} (h : Off d m₀ S A m)
    (put : Put exact d page state m m') (off : S' page → ¬ OnZero state)
    (avail : state = .unmapped .available → A' page) (sub : ∀ q, q ≠ page → S' q → S q)
    (sup : ∀ q, q ≠ page → A q → A' q) : Off d m₀ S' A' m' := by
  refine ⟨⟨put.apart.wf, fun off hoff => by rw [put.phys, h.zero off hoff]⟩, fun q user hq x hx => ?_,
    fun q user hx => ?_⟩
  · by_cases same : q = page
    · subst same
      rw [put.now, Option.some.injEq] at hx
      exact hx ▸ off hq
    · rw [put.rest q same] at hx
      exact h.clean.off q user (sub q same hq) x hx
  · by_cases same : q = page
    · subst same
      rw [put.now, Option.some.injEq] at hx
      exact avail hx
    · rw [put.rest q same] at hx
      exact sup q same (h.clean.avail q user hx)

theorem zeroFrame_fill {k off : Nat} (ne : k * pageSize ≠ zeroFrame) (hoff : off < pageSize)
    (bytes : Nat → UInt8) :
    (m.fill (k * pageSize) bytes).phys (zeroFrame + off) = m.phys (zeroFrame + off) := by
  simp only [Mem.fill, ite_eq_right_iff, and_imp]
  intro ge lt
  exact absurd (congrArg (· * pageSize)
    (frame_eq_of_byte (a := zeroFrame / pageSize) hoff ge lt)) (Ne.symm ne)

/-- A page was given a frame of its own. -/
theorem Off.cleared (h : Off d m₀ S A m) (cleared : Cleared d page m m') :
    Off d m₀ S (fun q => A q ∧ q ≠ page) m' ∧ ∃ pte, m'.state d page = some (.mapped pte) := by
  obtain ⟨pte, m₁, put, -, -, nz, rfl⟩ := cleared
  have own : ¬ OnZero (.mapped pte) := by
    rintro ⟨pte', eq, zero⟩
    cases eq
    exact nz zero
  have after : Off d m₀ S (fun q => A q ∧ q ≠ page) m₁ :=
    h.put put (fun _ => own) (fun eq => by cases eq) (fun _ _ h => h) fun _ ne h => ⟨h, ne⟩
  exact ⟨⟨⟨after.wf, fun off hoff => (zeroFrame_fill nz hoff _).trans (after.zero off hoff)⟩,
    after.clean⟩, pte, put.now⟩

/-- A store in kernel mode through a page that is not on the zero frame. -/
theorem Off.kstore {s : Kernel} (h : Off d m₀ S A s.mem) {v : Nat} (b : UInt8)
    (inside : S (pageOf v)) : Off d m₀ S A (s.kstore d v b).1.mem := by
  have vm := kstore_vm s d v b
  have state : (s.kstore d v b).1.mem.state d = s.mem.state d := by
    funext q
    rw [Mem.state, Mem.state, vm]
  refine ⟨⟨vm ▸ h.wf, fun off hoff => ?_⟩, state ▸ h.clean⟩
  rw [← h.zero off hoff]
  unfold Kernel.kstore
  cases stored : s.mem.kstore d v b with
  | none => rfl
  | some mem =>
      obtain ⟨a, at', rfl⟩ := Option.map_eq_some_iff.mp stored
      obtain ⟨pd, dir, at'⟩ := Option.bind_eq_some_iff.mp at'
      obtain ⟨f, frame, rfl⟩ := Option.map_eq_some_iff.mp at'
      have here : s.mem.frameAt d v = some f := by rw [Mem.frameAt, dir]; exact frame
      obtain ⟨k, rfl, where'⟩ := frameAt_spec h.wf here
      -- the frame is one of the kernel, or a page of `S` has it
      have nz : k * pageSize ≠ zeroFrame := by
        intro zero
        rcases where' with low | ⟨user, space, hd, frame⟩
        · rw [zero] at low
          exact absurd low (by decide)
        · cases mapped : space (pageOf v) with
          | unmapped avail =>
              rw [mapped] at frame
              cases frame
          | mapped pte =>
              rw [mapped, PageState.frame?, Option.some.injEq] at frame
              refine h.clean.off _ user inside _ (by rw [state_of_space hd, mapped]) ⟨pte, rfl, ?_⟩
              rw [frame, zero]
      have ne : zeroFrame + off ≠ k * pageSize + v % pageSize := by
        intro eq
        have lt := off_lt v
        refine nz (congrArg (· * pageSize) (frame_eq_of_byte (a := zeroFrame / pageSize) hoff
          (b := k) ?_ ?_)).symm <;> simp only [zeroFrame, userPageStart, userMemStart, pageSize] at * <;>
          omega
      simp only [Mem.put]
      rw [Function.update_of_ne ne]

end

/-! ### Pages -/

section
variable {exact : Prop} {t d : Nat} {s₀ : Kernel} {m₀ : Mem} {S A : Nat → Prop}

/-- The thread may die on the way. -/
abbrev loader (exact : Prop) (t : Nat) : Sys Kernel Unit Act Act.Result := free₀ False exact t

/-- Where the loader stops, the zero frame is as it was. -/
def Stopped (m₀ : Mem) (ok : Bool) (R : Mem → Prop) (m : Mem) : Prop :=
  bif ok then R m else ZeroKept m₀ m

theorem triple_offAvailable (v : Nat) :
    (loader exact t).Triple () (OnMem s₀ (Off d m₀ S A)) (act (.setAvailability d v 1)) fun ok =>
      OnMem s₀ (Stopped m₀ ok
        (Off d m₀ (fun q => S q ∨ q = pageOf v) fun q => A q ∨ q = pageOf v)) := by
  refine triple_at fun m h => ?_
  refine Triple.conseq (triple_setAvailability m d v 1) (fun _ _ h => h) ?_
  rintro ok s ⟨same, result, mem⟩
  refine ⟨same, ?_⟩
  rw [result, mem]
  rcases setAvailability_put h.wf v 1 with ⟨fails, idle⟩ | ⟨_, avail, works, -, -, bits, put⟩
  · rw [fails]
    exact h.toZeroKept.same idle
  · rw [works]
    refine h.put put (fun _ zero => ?_) (fun _ => .inr rfl) (fun q ne hq => hq.resolve_right ne)
      fun q _ hq => .inl hq
    obtain ⟨pte, eq, -⟩ := zero
    cases eq

theorem triple_offWalk (vs : List Nat) (S A : Nat → Prop) :
    (loader exact t).Triple () (OnMem s₀ (Off d m₀ S A))
      (forAll (fun v => act (.setAvailability d v 1)) vs) fun ok => OnMem s₀ (Stopped m₀ ok
        (Off d m₀ (fun q => S q ∨ Visits vs q) fun q => A q ∨ Visits vs q)) := by
  induction vs generalizing S A with
  | nil =>
      refine Triple.ret fun s _ h => ⟨h.1, h.2.mono (fun q hq => hq.resolve_right ?_) fun q hq => .inl hq⟩
      rintro ⟨v, hv, -⟩
      cases hv
  | cons v vs ih =>
      refine Triple.bind (triple_offAvailable v) fun ok => ?_
      cases ok with
      | false => exact Triple.ret fun _ _ h => h
      | true =>
          refine Triple.conseq (ih _ _) (fun _ _ h => h) fun ok s h => ⟨h.1, ?_⟩
          cases ok with
          | false => exact h.2
          | true =>
              refine h.2.mono ?_ ?_
              · rintro q (hq | ⟨u, hu, rfl⟩)
                · exact .inl (.inl hq)
                · rcases List.mem_cons.mp hu with rfl | hu
                  · exact .inl (.inr rfl)
                  · exact .inr ⟨u, hu, rfl⟩
              · rintro q ((hq | rfl) | ⟨u, hu, rfl⟩)
                · exact .inl hq
                · exact .inr ⟨v, List.mem_cons_self, rfl⟩
                · exact .inr ⟨u, List.mem_cons_of_mem v hu, rfl⟩

/-- `map_and_clear` of one page. -/
theorem triple_offPage (zeroFrame : Bool) (v : Nat) :
    (loader exact t).Triple () (OnMem s₀ (Off d m₀ S A)) (mapAndClearPage d zeroFrame v) fun ok =>
      OnMem s₀ (Stopped m₀ ok (Off d m₀ (fun q => S q ∧ (zeroFrame = true → q = pageOf v → ¬ A q))
        fun q => A q ∧ q ≠ pageOf v)) := by
  refine triple_at fun m h => ?_
  refine Triple.bind (triple_askPage m d v) fun r => triple_at fun _ told => ?_
  obtain ⟨answer, rfl⟩ := told
  rcases r with - | info
  · exact Triple.ret fun _ _ k => ⟨k.1, k.2 ▸ h.toZeroKept⟩
  -- the page is mapped already
  have skip : (∃ pte, m.state d (pageOf v) = some (.mapped pte)) →
      Off d m₀ (fun q => S q ∧ (zeroFrame = true → q = pageOf v → ¬ A q))
        (fun q => A q ∧ q ≠ pageOf v) m := by
    rintro ⟨pte, mapped⟩
    refine ⟨h.toZeroKept, fun q user hq => h.clean.off q user hq.1,
      fun q user hq => ⟨h.clean.avail q user hq, ?_⟩⟩
    rintro rfl
    rw [mapped] at hq
    cases hq
  have seen := checkUserPage_seen m d v
  rw [← answer] at seen
  cases info with
  | pdeNotPresent | pteNotPresent =>
      -- the page is available and gets a frame, or it is not
      refine Triple.bind (triple_askAvailability m d v) fun r => triple_at fun _ told => ?_
      obtain ⟨answer, rfl⟩ := told
      rcases r with - | - | -
      · exact Triple.ret fun _ _ k => ⟨k.1, k.2 ▸ h.toZeroKept⟩
      · exact Triple.ret fun _ _ k => ⟨k.1, k.2 ▸ h.toZeroKept⟩
      obtain ⟨space, hd, user, state⟩ := getAvailability_eq.mp answer.symm
      have avail : A (pageOf v) := h.clean.avail _ user (by rw [state_of_space hd, state])
      cases zeroFrame with
      | true =>
          refine Triple.conseq (triple_mapZeroFrame m d v) (fun _ _ h => h) ?_
          rintro ok s ⟨same, result, mem⟩
          refine ⟨same, ?_⟩
          rw [result, mem]
          rcases mapZeroFrame_put h.wf v with ⟨fails, idle⟩ | ⟨_, works, -, -, put⟩
          · rw [fails]
            exact h.toZeroKept.same idle
          · rw [works]
            exact h.put put (fun hq => absurd avail (hq.2 rfl rfl)) (fun eq => by cases eq)
              (fun q _ hq => hq.1) fun q ne hq => ⟨hq, ne⟩
      | false =>
          refine Triple.conseq (triple_mapAndClearNew h.wf v) (fun _ _ h => h) ?_
          rintro ok s ⟨same, cleared⟩
          refine ⟨same, ?_⟩
          cases ok with
          | false => exact h.toZeroKept.same cleared.1
          | true => exact (h.cleared cleared).1.mono (fun q hq => hq.1) fun q hq => hq
  | zeroFrameMapped =>
      obtain ⟨x, hx, pte, rfl, -⟩ := seen
      exact Triple.ret fun _ _ k => ⟨k.1, k.2 ▸ skip ⟨pte, hx⟩⟩
  | newFrameMapped => exact Triple.ret fun _ _ k => ⟨k.1, k.2 ▸ skip seen⟩

/-- `map_and_clear` with new frames. -/
theorem triple_offNew (vs : List Nat) (A : Nat → Prop) :
    (loader exact t).Triple () (OnMem s₀ (Off d m₀ S A)) (forAll (mapAndClearPage d false) vs)
      fun ok => OnMem s₀ (Stopped m₀ ok (Off d m₀ S fun q => A q ∧ ¬ Visits vs q)) := by
  induction vs generalizing A with
  | nil =>
      refine Triple.ret fun s _ h => ⟨h.1, h.2.mono (fun q hq => hq) fun q hq => ⟨hq, ?_⟩⟩
      rintro ⟨v, hv, -⟩
      cases hv
  | cons v vs ih =>
      refine Triple.bind (triple_offPage false v) fun ok => ?_
      cases ok with
      | false => exact Triple.ret fun _ _ h => h
      | true =>
          refine Triple.conseq (ih fun q => A q ∧ q ≠ pageOf v) (fun s _ h => ?_)
            fun ok s h => ⟨h.1, ?_⟩
          · exact ⟨h.1, h.2.mono (fun q hq => ⟨hq, by simp⟩) fun q hq => hq⟩
          · cases ok with
            | false => exact h.2
            | true =>
                refine h.2.mono (fun q hq => hq) ?_
                rintro q ⟨⟨hq, ne⟩, others⟩
                refine ⟨hq, ?_⟩
                rintro ⟨u, hu, rfl⟩
                rcases List.mem_cons.mp hu with rfl | hu
                · exact ne rfl
                · exact others ⟨u, hu, rfl⟩

/-- `map_and_clear` to the zero frame. -/
theorem triple_offZero (vs : List Nat) :
    (loader exact t).Triple () (OnMem s₀ (Off d m₀ S A)) (forAll (mapAndClearPage d true) vs)
      fun ok => OnMem s₀ (Stopped m₀ ok (Off d m₀ (fun q => S q ∧ ¬ A q) A)) := by
  have kept : (loader exact t).Triple () (OnMem s₀ (Off d m₀ (fun q => S q ∧ ¬ A q) A))
      (forAll (mapAndClearPage d true) vs) fun ok s => bif ok then
        OnMem s₀ (Off d m₀ (fun q => S q ∧ ¬ A q) A) s else OnMem s₀ (ZeroKept m₀) s := by
    refine Triple.forAll (I := fun _ => OnMem s₀ (Off d m₀ (fun q => S q ∧ ¬ A q) A))
      (fun v rest => ?_) vs
    refine Triple.conseq (triple_offPage true v) (fun _ _ h => h) fun ok s h => ?_
    cases ok with
    | false => exact h
    | true => exact ⟨h.1, h.2.mono (fun q hq => ⟨hq, fun _ _ => hq.2⟩) fun q hq => hq.1⟩
  refine Triple.conseq kept (fun s _ h => ⟨h.1, h.2.mono (fun q hq => hq.1) fun q hq => hq⟩)
    fun ok s h => ?_
  cases ok with
  | false => exact h
  | true => exact h

end

/-! ### Bytes -/

section
variable {exact : Prop} {t d : Nat} {s₀ : Kernel} {m₀ : Mem} {S A : Nat → Prop}

/-- A thread that goes on after `vanish` has no process, and nothing has happened. -/
theorem triple_vanished (d : Nat) {P : Mem → Prop} :
    (loader exact t).Triple () (OnMem s₀ P) (act (.vanish d)) fun _ => OnMem s₀ P := by
  refine Triple.atOnce fun s _ _ h => ⟨fun no => no.elim, fun alive => ?_⟩
  simp only [Kernel.exec] at alive ⊢
  split at alive
  · simp [Kernel.alive] at alive
  · exact h

theorem triple_offFault (v : Nat) :
    (loader exact t).Triple () (OnMem s₀ (Off d m₀ S A)) (handlePageFault d false true v) fun _ =>
      OnMem s₀ (Off d m₀ S A) := by
  refine Triple.bind (Q := fun _ => OnMem s₀ (Off d m₀ S A)) ?_ fun ok => ?_
  · refine triple_at fun m h => ?_
    refine Triple.bind (triple_askAvailability m d v) fun r => triple_at fun _ told => ?_
    obtain ⟨-, rfl⟩ := told
    rcases r with - | - | -
    · exact Triple.ret fun _ _ k => ⟨k.1, k.2 ▸ h⟩
    · exact Triple.ret fun _ _ k => ⟨k.1, k.2 ▸ h⟩
    refine Triple.conseq (triple_mapAndClearNew h.wf v) (fun _ _ h => h) ?_
    rintro ok s ⟨same, cleared⟩
    refine ⟨same, ?_⟩
    cases ok with
    | false => exact h.same cleared.1
    | true => exact (h.cleared cleared).1.mono (fun _ hq => hq) fun _ hq => hq.1
  · cases ok with
    | true => exact Triple.ret fun _ _ h => h
    | false => exact triple_vanished d

theorem triple_offPlace (v : Nat) (b : UInt8) (inside : S (pageOf v)) :
    (loader exact t).Triple () (OnMem s₀ (Off d m₀ S A)) (placeByte d v b) fun _ =>
      OnMem s₀ (Off d m₀ S A) := by
  have page : pageOf (v % virtualAddrEnd) = pageOf v := by simp [pageOf]
  have store : (loader exact t).Triple () (OnMem s₀ (Off d m₀ S A)) (act (.place d v b)) fun _ =>
      OnMem s₀ (Off d m₀ S A) :=
    triple_mem (.place d v b) trivial fun s _ h => h.kstore b (page.symm ▸ inside)
  refine Triple.bind store fun ok => ?_
  cases ok with
  | true => exact Triple.ret fun _ _ h => h
  | false =>
      refine Triple.bind (triple_offFault v) fun _ => ?_
      exact Triple.bind store fun _ => Triple.ret fun _ _ h => h

theorem triple_offBytes (bytes : List UInt8) (v : Nat) (inside : ∀ i < bytes.length, S (pageOf (v + i))) :
    (loader exact t).Triple () (OnMem s₀ (Off d m₀ S A)) (placeBytes d v bytes) fun _ =>
      OnMem s₀ (Off d m₀ S A) := by
  induction bytes generalizing v with
  | nil => exact Triple.ret fun _ _ h => h
  | cons b bytes ih =>
      refine Triple.bind (triple_offPlace v b (inside 0 (by simp))) fun _ => ih (v + 1) fun i hi => ?_
      have := inside (i + 1) (by simpa using hi)
      rwa [Nat.add_right_comm, Nat.add_assoc]

/-! ### The stack -/

/-- A part of the loader that reports what it did, if it did not stop. -/
def Reports {α : Type} (m₀ : Mem) (R : Mem → Prop) (r : Option α) (m : Mem) : Prop :=
  Stopped m₀ r.isSome R m

theorem triple_offPush (esp : Nat) (val : List UInt8) :
    (loader exact t).Triple () (OnMem s₀ (Off d m₀ Every A)) (pushVal d esp val) fun r =>
      OnMem s₀ (Reports m₀ (Off d m₀ Every A) r) := by
  unfold pushVal
  split
  · exact Triple.ret fun _ _ h => h
  refine Triple.bind (triple_offNew _ A) fun ok => ?_
  cases ok with
  | false => exact Triple.ret fun _ _ h => h
  | true =>
      refine Triple.bind (Triple.conseq (triple_offBytes _ _ fun _ _ => trivial)
        (fun s _ h => ⟨h.1, ?_⟩) fun _ _ h => h) fun _ => Triple.ret fun _ _ h => h
      exact h.2.mono (fun _ h => h) fun _ h => h.1

theorem triple_offPushes (vals : List (List UInt8)) (esp : Nat) :
    (loader exact t).Triple () (OnMem s₀ (Off d m₀ Every A)) (pushVals d esp vals) fun r =>
      OnMem s₀ (Reports m₀ (Off d m₀ Every A) r) := by
  induction vals generalizing esp with
  | nil => exact Triple.ret fun _ _ h => h
  | cons val vals ih =>
      refine Triple.bind (triple_offPush esp val) fun r => ?_
      rcases r with - | ⟨esp', placed⟩
      · exact Triple.ret fun _ _ h => h
      refine Triple.bind (ih esp') fun r => ?_
      rcases r with - | ⟨esps, placed'⟩ <;> exact Triple.ret fun _ _ h => h

theorem triple_offArguments (stackLow stackHigh : Nat) (args : List (List UInt8)) :
    (loader exact t).Triple () (OnMem s₀ (Off d m₀ Every A)) (pushArguments d stackLow stackHigh args)
      fun r => OnMem s₀ (Reports m₀ (Off d m₀ Every A) r) := by
  refine Triple.bind (triple_offPushes _ _) fun r => ?_
  rcases r with - | ⟨esps, strings⟩
  · exact Triple.ret fun _ _ h => h
  refine Triple.bind (triple_offPushes _ _) fun r => ?_
  rcases r with - | ⟨esps', array⟩
  · exact Triple.ret fun _ _ h => h
  refine Triple.bind (triple_offPushes _ _) fun r => ?_
  rcases r with - | ⟨esps'', frame⟩ <;> exact Triple.ret fun _ _ h => h

/-- A guest has all its memory mapped, any other its stack available. -/
theorem triple_offPrepare (guest : Bool) (stackLow : Nat) :
    (loader exact t).Triple () (OnMem s₀ (Off d m₀ Every fun _ => False)) (prepareStack d guest stackLow)
      fun ok => OnMem s₀ (Stopped m₀ ok (Off d m₀ Every fun _ => guest = false)) := by
  -- for any range: the pages of a closed range would be listed while checking
  have both : ∀ addr size len, (loader exact t).Triple ()
      (OnMem s₀ (Off d m₀ Every fun _ => False))
      (if guest then mapRange d addr size else changeAvailability d stackLow len 1) fun ok =>
        OnMem s₀ (Stopped m₀ ok (Off d m₀ Every fun _ => guest = false)) := by
    intro addr size len
    cases guest with
    | false =>
        refine Triple.conseq (triple_offWalk _ _ _) (fun _ _ h => h) fun ok s h => ⟨h.1, ?_⟩
        cases ok with
        | false => exact h.2
        | true => exact h.2.mono (fun _ h => .inl h) fun _ _ => rfl
    | true =>
        refine Triple.bind (triple_offWalk _ _ _) fun ok => ?_
        cases ok with
        | false => exact Triple.ret fun _ _ h => h
        | true =>
            refine Triple.conseq (triple_offNew (pagesOf addr size) _) (fun _ _ h => h)
              fun ok s h => ⟨h.1, ?_⟩
            cases ok with
            | false => exact h.2
            | true =>
                refine h.2.mono (fun _ h => .inl h) ?_
                rintro q ⟨hq | hq, not⟩
                · exact hq.elim
                · exact absurd hq not
  exact both userMemStart guestMemSize (userStackLen * 4)

theorem triple_offStack (guest : Bool) (args : List (List UInt8)) :
    (loader exact t).Triple () (OnMem s₀ (Off d m₀ Every fun _ => False)) (loadStack d guest args)
      fun r => OnMem s₀ (Reports m₀ (Off d m₀ (fun _ => guest = true) fun _ => guest = false) r) := by
  unfold loadStack
  generalize (if guest then userMemStart + guestMemSize else 0) = stackHigh
  dsimp only
  generalize (stackHigh + virtualAddrEnd - userStackLen * 4) % virtualAddrEnd = stackLow
  refine Triple.bind (triple_offPrepare guest stackLow) fun ok => ?_
  cases ok with
  | false => exact Triple.ret fun _ _ h => h
  | true =>
      refine Triple.bind (triple_offArguments stackLow stackHigh args) fun r => ?_
      rcases r with - | ⟨esp, placed⟩
      · exact Triple.ret fun _ _ h => h
      refine Triple.bind (triple_offZero _) fun ok => ?_
      cases ok with
      | false => exact Triple.ret fun _ _ h => h
      | true =>
          exact Triple.ret fun s _ h => ⟨h.1, h.2.mono (fun _ hq => ⟨trivial, by simp [hq]⟩) fun _ h => h⟩

end

/-! ### The sections -/

section
variable {exact : Prop} {t d : Nat} {s₀ : Kernel} {m₀ : Mem} {S A : Nat → Prop}

theorem triple_offCopy (v : Nat) (file : List UInt8) (sec : Section)
    (inside : ∀ i < sec.len, S (pageOf (v + i))) :
    (loader exact t).Triple () (OnMem s₀ (Off d m₀ S A)) (copySection d v file sec) fun r =>
      OnMem s₀ (Reports m₀ (Off d m₀ S A) r) := by
  unfold copySection
  cases hb : getbytes file sec.off sec.len with
  | none => exact Triple.ret fun _ _ h => ⟨h.1, h.2.toZeroKept⟩
  | some bytes =>
      have length : bytes.length ≤ sec.len := by
        unfold getbytes at hb
        split at hb
        · cases hb
        · cases hb
          exact List.length_take_le ..
      dsimp only
      split
      · exact Triple.ret fun _ _ h => ⟨h.1, h.2.toZeroKept⟩
      · exact Triple.bind (triple_offBytes bytes v fun i hi => inside i (by omega)) fun _ =>
          Triple.ret fun _ _ h => h

theorem triple_offSections {load : Section → Program (Option Placed)} (secs : List Section)
    (each : ∀ sec ∈ secs, (loader exact t).Triple () (OnMem s₀ (Off d m₀ S A)) (load sec) fun r =>
      OnMem s₀ (Reports m₀ (Off d m₀ S A) r)) :
    (loader exact t).Triple () (OnMem s₀ (Off d m₀ S A)) (loadSections load secs) fun r =>
      OnMem s₀ (Reports m₀ (Off d m₀ S A) r) := by
  induction secs with
  | nil => exact Triple.ret fun _ _ h => h
  | cons sec secs ih =>
      refine Triple.bind (each sec List.mem_cons_self) fun r => ?_
      rcases r with - | placed
      · exact Triple.ret fun _ _ h => h
      refine Triple.bind (ih fun sec' mem => each sec' (List.mem_cons_of_mem sec mem)) fun r => ?_
      rcases r with - | placed' <;> exact Triple.ret fun _ _ h => h

theorem triple_offSection (file : List UInt8) (sec : Section)
    (inside : ∀ i < sec.len, S (pageOf (sec.start + i))) :
    (loader exact t).Triple () (OnMem s₀ (Off d m₀ S Every)) (loadSection d file sec) fun r =>
      OnMem s₀ (Reports m₀ (Off d m₀ S Every) r) := by
  refine Triple.bind (triple_offNew _ Every) fun ok => ?_
  cases ok with
  | false => exact Triple.ret fun _ _ h => h
  | true =>
      exact Triple.conseq (triple_offCopy _ file sec inside)
        (fun s _ h => ⟨h.1, h.2.mono (fun _ h => h) fun _ _ => trivial⟩) fun _ _ h => h

theorem triple_offRanges (ranges : List (Nat × Nat)) (S : Nat → Prop) :
    (loader exact t).Triple () (OnMem s₀ (Off d m₀ S Every))
      (forAll (fun range => changeAvailability d range.1 range.2 1) ranges) fun ok =>
        OnMem s₀ (Stopped m₀ ok (Off d m₀ (fun q => S q ∨ InRanges ranges q) Every)) := by
  induction ranges generalizing S with
  | nil =>
      refine Triple.ret fun s _ h => ⟨h.1, h.2.mono (fun q hq => hq.resolve_right ?_) fun q hq => hq⟩
      rintro ⟨range, mem, -⟩
      cases mem
  | cons range ranges ih =>
      refine Triple.bind (triple_offWalk _ _ _) fun ok => ?_
      cases ok with
      | false => exact Triple.ret fun _ _ h => h
      | true =>
          refine Triple.conseq (ih _) (fun s _ h => ⟨h.1, h.2.mono (fun _ h => h) fun _ _ => trivial⟩)
            fun ok s h => ⟨h.1, ?_⟩
          cases ok with
          | false => exact h.2
          | true =>
              refine h.2.mono ?_ fun _ h => h
              rintro q (hq | ⟨range', mem, visits⟩)
              · exact .inl (.inl hq)
              · rcases List.mem_cons.mp mem with rfl | mem
                · exact .inl (.inr visits)
                · exact .inr ⟨range', mem, visits⟩

/-- Access bits do not move pages. -/
theorem triple_offAccess (vs : List Nat) (access : Nat) :
    (loader exact t).Triple () (OnMem s₀ (Off d m₀ S Every))
      (forAll (fun v => act (.setAccess d v access)) vs) fun ok =>
        OnMem s₀ (Stopped m₀ ok (Off d m₀ S Every)) := by
  have walk : (loader exact t).Triple () (OnMem s₀ (Off d m₀ S Every))
      (forAll (fun v => act (.setAccess d v access)) vs) fun ok s => bif ok then
        OnMem s₀ (Off d m₀ S Every) s else OnMem s₀ (ZeroKept m₀) s := by
    refine Triple.forAll (I := fun _ => OnMem s₀ (Off d m₀ S Every)) (fun v rest => ?_) vs
    refine triple_at fun m h => ?_
    refine Triple.conseq (triple_setAccess m d v access) (fun _ _ h => h) ?_
    rintro ok s ⟨same, result, mem⟩
    rw [result]
    rcases setAccess_put h.wf v access with ⟨fails, idle⟩ | ⟨pte, rw, works, user, old, -, put⟩
    · rw [fails]
      exact ⟨same, mem ▸ h.toZeroKept.same idle⟩
    · rw [works]
      refine ⟨same, mem ▸ h.put put (fun hq zero => ?_) (fun eq => by cases eq) (fun _ _ h => h)
        fun _ _ _ => trivial⟩
      obtain ⟨pte', eq, zero⟩ := zero
      cases eq
      exact h.clean.off _ user hq _ old ⟨pte, rfl, zero⟩
  refine Triple.conseq walk (fun _ _ h => h) fun ok s h => ?_
  cases ok with
  | false => exact h
  | true => exact h

theorem triple_offGuest (image : Image) :
    (loader exact t).Triple () (OnMem s₀ (Off d m₀ Every A)) (loadGuest d image) fun r =>
      OnMem s₀ (Reports m₀ (Off d m₀ Every A) r) :=
  triple_offSections image.sections fun sec _ =>
    triple_offCopy _ image.file sec fun _ _ => trivial

theorem triple_offUser (image : Image) :
    (loader exact t).Triple () (OnMem s₀ (Off d m₀ (fun _ => False) Every)) (loadUser d image)
      fun r => OnMem s₀ (Reports m₀ (ZeroKept m₀) r) := by
  refine Triple.bind (triple_offRanges _ _) fun ok => ?_
  cases ok with
  | false => exact Triple.ret fun _ _ h => h
  | true =>
      -- every byte of a section lies in a page found not mapped
      have inside : ∀ sec ∈ image.sections, ∀ i < sec.len, InRanges
          ([image.txt, image.rodat, image.dat].map (fun s => (s.start, s.len)) ++
            [(image.bssStart, image.bssLen)]) (pageOf (sec.start + i)) := by
        intro sec mem i hi
        have listed : sec ∈ [image.txt, image.rodat, image.dat] := by
          rcases List.mem_cons.mp mem with rfl | mem
          · simp
          · exact List.mem_cons_of_mem _ (List.mem_of_mem_filter mem)
        exact ⟨(sec.start, sec.len), List.mem_append_left _ (List.mem_map.mpr ⟨sec, listed, rfl⟩),
          visits_pagesOf hi⟩
      refine Triple.bind (triple_offSections image.sections fun sec mem =>
        triple_offSection image.file sec fun i hi => .inr (inside sec mem i hi)) fun r => ?_
      rcases r with - | placed
      · exact Triple.ret fun _ _ h => h
      refine Triple.bind (triple_offAccess _ 0) fun ok => ?_
      cases ok with
      | false => exact Triple.ret fun _ _ h => h
      | true =>
      refine Triple.bind (triple_offAccess _ 0) fun ok => ?_
      cases ok with
      | false => exact Triple.ret fun _ _ h => h
      | true =>
      refine Triple.bind (triple_offAccess _ 1) fun ok => ?_
      cases ok with
      | false => exact Triple.ret fun _ _ h => h
      | true =>
      refine Triple.bind (triple_offZero _) fun ok => ?_
      cases ok with
      | false => exact Triple.ret fun _ _ h => h
      | true => exact Triple.ret fun _ _ h => ⟨h.1, h.2.toZeroKept⟩

/-- The image, in a directory with no user page. -/
theorem triple_offImage (image : Image) (args : List (List UInt8)) :
    (loader exact t).Triple () (OnMem s₀ (Off d m₀ Every fun _ => False)) (loadImage d image args)
      fun _ => OnMem s₀ (ZeroKept m₀) := by
  refine Triple.bind (triple_offStack image.guest args) fun r => ?_
  rcases r with - | placed
  · exact Triple.ret fun _ _ h => h
  refine Triple.bind (Q := fun _ => OnMem s₀ (ZeroKept m₀)) ?_ fun r => ?_
  · cases image.guest with
    | true =>
        refine Triple.conseq (triple_offGuest (A := Every) image)
          (fun s _ h => ⟨h.1, h.2.mono (fun _ _ => rfl) fun _ _ => trivial⟩) fun r s h => ⟨h.1, ?_⟩
        cases r with
        | none => exact h.2
        | some placed => exact h.2.toZeroKept
    | false =>
        refine Triple.conseq (triple_offUser image)
          (fun s _ h => ⟨h.1, h.2.mono (fun _ no => no.elim) fun _ _ => trivial⟩) fun r s h => ⟨h.1, ?_⟩
        cases r with
        | none => exact h.2
        | some placed => exact h.2
  · rcases r with - | placed' <;> exact Triple.ret fun _ _ h => h

end

end OsKernel.Syscall
