/-
`load_executable` leaves the process with the bytes it has placed and zeros.

The loader stores in kernel mode, so it must never store through a page that is
mapped to the zero frame. `Clean S A` is what it keeps for that: no page of `S` is
mapped to the zero frame, and a page that is available and not mapped belongs to
`A`. The arguments are pushed while no page at all is on the zero frame; a section
is copied to pages that `change_availability` has found not mapped; and a guest
has no available page left once all its memory is mapped, so that leaving the
rest of its stack to the zero frame maps nothing.
-/

import OsKernel.Memory.Fork

namespace OsKernel.Memory

open OsKernel.Vm Prog Sys

/-- No user page of `S` is mapped to the zero frame, and every available page is in `A`. -/
structure Clean (S A : Nat → Prop) (st : Nat → Option PageState) : Prop where
  off : ∀ q, UserPage q → S q → ∀ x, st q = some x → ¬ OnZero x
  avail : ∀ q, UserPage q → st q = some (.unmapped .available) → A q

theorem Clean.mono {S S' A A' : Nat → Prop} {st : Nat → Option PageState} (h : Clean S A st)
    (sub : ∀ q, S' q → S q) (sup : ∀ q, A q → A' q) : Clean S' A' st :=
  ⟨fun q user hq => h.off q user (sub q hq), fun q user hq => sup q (h.avail q user hq)⟩

/-- The pages that a walk over a range visits. -/
def Visits (vs : List Nat) (q : Nat) : Prop := ∃ v ∈ vs, pageOf v = q

/-- Bytes placed one after another in a memory. -/
def placeOn (g : Nat → UInt8) (placed : Placed) : Nat → UInt8 :=
  placed.foldl (fun f w => Function.update f w.1 w.2) g

theorem placeOn_append (g : Nat → UInt8) (placed placed' : Placed) :
    placeOn g (placed ++ placed') = placeOn (placeOn g placed) placed' := by
  simp [placeOn]

variable {full : Bool} {t d e p : Nat} {f g : Nat → UInt8} {S A : Nat → Prop}

section

variable (t d e p f)

/-- The directory shows `g` and its pages are clean. -/
abbrev Loading (S A : Nat → Prop) (g : Nat → UInt8) : Kernel → Prop :=
  Building t d e p f none g Any (Clean S A)

/-- The loader gives up. -/
def GivenUp (s : Kernel) : Prop := ∃ g, Building t d e p f none g Any Any s

end

theorem Building.append {known pages : (Nat → Option PageState) → Prop} {s : Kernel}
    {placed placed' : Placed}
    (h : Building t d e p f none (placeOn (placeOn g placed) placed') known pages s) :
    Building t d e p f none (placeOn g (placed ++ placed')) known pages s := by
  rw [placeOn_append]
  exact h

theorem Building.givenUp {known pages : (Nat → Option PageState) → Prop} {s : Kernel}
    (h : Building t d e p f none g known pages s) : GivenUp t d e p f s :=
  ⟨g, h.forget⟩

/-! ### Walks over pages -/

theorem triple_available (v : Nat) :
    (sys full).Triple t (Loading t d e p f S A g) (act (.setAvailability e v 1)) fun ok s =>
      bif ok then Loading t d e p f (fun q => S q ∨ q = pageOf v) (fun q => A q ∨ q = pageOf v) g s
      else GivenUp t d e p f s := by
  refine Triple.conseq (triple_setAvailability_build v 1) (fun _ _ h => h) fun ok s h => ?_
  cases ok with
  | false => exact h.givenUp
  | true =>
      refine h.mono (fun _ k => k) fun st put => ?_
      obtain ⟨st₀, x, y, clean, -, ⟨-, avail, -, rfl⟩, rfl⟩ := put
      refine ⟨fun q user hq z hz zero => ?_, fun q user hz => ?_⟩
      · by_cases same : q = pageOf v
        · rw [same, Function.update_self, Option.some.injEq] at hz
          obtain ⟨pte, eq, -⟩ := zero
          rw [← hz] at eq
          cases eq
        · rw [Function.update_of_ne same] at hz
          exact clean.off q user (hq.resolve_right same) z hz zero
      · by_cases same : q = pageOf v
        · exact .inr same
        · rw [Function.update_of_ne same] at hz
          exact .inl (clean.avail q user hz)

/-- After `change_availability` none of its pages is mapped. -/
theorem triple_changeAvailability_walk (vs : List Nat) (S A : Nat → Prop) :
    (sys full).Triple t (Loading t d e p f S A g)
      (forAll (fun v => act (.setAvailability e v 1)) vs) fun ok s => bif ok then
        Loading t d e p f (fun q => S q ∨ Visits vs q) (fun q => A q ∨ Visits vs q) g s
      else GivenUp t d e p f s := by
  induction vs generalizing S A with
  | nil =>
      refine Triple.ret fun s _ h => h.mono (fun _ k => k) fun st clean => ?_
      refine clean.mono (fun q hq => hq.resolve_right ?_) fun q hq => .inl hq
      rintro ⟨v, hv, -⟩
      cases hv
  | cons v vs ih =>
      refine Triple.bind (triple_available v) fun ok => ?_
      cases ok with
      | false => exact Triple.ret fun _ _ h => h
      | true =>
          refine Triple.conseq (ih _ _) (fun _ _ h => h) fun ok s h => ?_
          cases ok with
          | false => exact h
          | true =>
              refine h.mono (fun _ k => k) fun st clean => clean.mono ?_ ?_
              · rintro q (hq | ⟨u, hu, rfl⟩)
                · exact .inl (.inl hq)
                · rcases List.mem_cons.mp hu with rfl | hu
                  · exact .inl (.inr rfl)
                  · exact .inr ⟨u, hu, rfl⟩
              · rintro q ((hq | rfl) | ⟨u, hu, rfl⟩)
                · exact .inl hq
                · exact .inr ⟨v, List.mem_cons_self, rfl⟩
                · exact .inr ⟨u, List.mem_cons_of_mem v hu, rfl⟩

theorem triple_changeAvailability (addr size : Nat) :
    (sys full).Triple t (Loading t d e p f S A g) (changeAvailability e addr size 1) fun ok s =>
      bif ok then Loading t d e p f (fun q => S q ∨ Visits (pagesOf addr size) q)
        (fun q => A q ∨ Visits (pagesOf addr size) q) g s
      else GivenUp t d e p f s :=
  triple_changeAvailability_walk (pagesOf addr size) S A

theorem checkUserPage_user {m : Mem} {v : Nat} {r : MappingInfo}
    (h : checkUserPage m.vm e v = some r) : UserPage (pageOf v) := by
  unfold checkUserPage at h
  split at h
  · cases h
  · split at h
    · cases h
    · rename_i user
      exact not_not.mp (mt not_userPage.mpr user)

theorem getAvailability_state {m : Mem} {v : Nat} {avail : Availability}
    (h : getAvailability m.vm e v = some avail) :
    m.state e (pageOf v) = some (.unmapped avail) := by
  unfold getAvailability at h
  cases hd : m.vm.dirs e with
  | none => rw [hd] at h; cases h
  | some pd =>
      simp only [hd] at h
      split at h
      · cases h
      rw [state_of_space (abs_space_some hd)]
      rcases findFrame_cases pd v with ⟨a, found, state⟩ | ⟨pte, found, -, -, state⟩ |
        ⟨pte, found, -, -, state⟩ <;> simp only [found] at h <;> cases h
      · rw [state]
      · rw [state]

/-- What one page of `map_and_clear` does: afterwards the page is mapped, and to the
zero frame only if it was available. -/
theorem triple_mapAndClearPage (zeroFrame : Bool) (v : Nat) :
    (sys full).Triple t (Loading t d e p f S A g) (mapAndClearPage e zeroFrame v) fun ok s =>
      bif ok then Loading t d e p f
          (fun q => S q ∧ (zeroFrame = true → q = pageOf v → ¬ A q))
          (fun q => A q ∧ q ≠ pageOf v) g s
      else GivenUp t d e p f s := by
  -- the page is mapped already
  have skip : ∀ {st}, Clean S A st → (∃ pte, st (pageOf v) = some (.mapped pte)) →
      Clean (fun q => S q ∧ (zeroFrame = true → q = pageOf v → ¬ A q))
        (fun q => A q ∧ q ≠ pageOf v) st := by
    rintro st clean ⟨pte, mapped⟩
    refine ⟨fun q user hq => clean.off q user hq.1, fun q user hq => ⟨clean.avail q user hq, ?_⟩⟩
    rintro rfl
    rw [mapped] at hq
    cases hq
  refine Triple.bind (triple_checkUserPage Building.stable e v) fun r => ?_
  rcases r with - | info
  · exact Triple.ret fun _ _ h => h.1.givenUp
  rintro s inv live ⟨h, answer⟩
  have user := checkUserPage_user answer.symm
  have seen := checkUserPage_seen s.mem e v
  rw [← answer] at seen
  cases info with
  | pdeNotPresent | pteNotPresent =>
      -- the page is available and gets a frame, or it is not
      refine Triple.bind (triple_getAvailability Building.stable e v) (fun r => ?_) s inv live h
      rcases r with - | - | -
      · exact Triple.ret fun _ _ h => h.1.givenUp
      · exact Triple.ret fun _ _ h => h.1.givenUp
      have after : ∀ {rel : PageState → PageState → Prop},
          (∀ x y, rel x y → (∃ pte, y = .mapped pte) ∧ (zeroFrame = false → ¬ OnZero y)) →
          ∀ st, PutPage (pageOf v) rel (fun st => Clean S A st ∧
            st (pageOf v) = some (.unmapped .available)) st →
          Clean (fun q => S q ∧ (zeroFrame = true → q = pageOf v → ¬ A q))
            (fun q => A q ∧ q ≠ pageOf v) st := by
        rintro rel gives st ⟨st₀, x, y, ⟨clean, was⟩, -, h, rfl⟩
        obtain ⟨⟨pte, rfl⟩, own⟩ := gives x y h
        refine ⟨fun q user hq z hz zero => ?_, fun q user hz => ?_⟩
        · by_cases same : q = pageOf v
          · rw [same, Function.update_self, Option.some.injEq] at hz
            subst hz
            cases zeroFrame with
            | false => exact own rfl zero
            | true => exact hq.2 rfl same (clean.avail q user (same ▸ was))
          · rw [Function.update_of_ne same] at hz
            exact clean.off q user hq.1 z hz zero
        · have ne : q ≠ pageOf v := by
            rintro rfl
            rw [Function.update_self] at hz
            cases hz
          rw [Function.update_of_ne ne] at hz
          exact ⟨clean.avail q user hz, ne⟩
      refine Triple.conseq (P := Building t d e p f none g Any (fun st => Clean S A st ∧
          st (pageOf v) = some (.unmapped .available))) ?_ (fun s _ h => ?_) fun _ _ h => h
      · cases zeroFrame with
        | true =>
            refine Triple.conseq (triple_mapZeroFrame_build v) (fun _ _ h => h) fun ok s h => ?_
            cases ok with
            | false => exact h.givenUp
            | true =>
                refine h.mono (fun _ k => k) (after fun x y rel => ⟨?_, by simp⟩)
                obtain ⟨-, pte, rfl, -⟩ := rel
                exact ⟨pte, rfl⟩
        | false =>
            refine Triple.conseq (triple_mapAndClearNew_build v) (fun _ _ h => h) fun ok s h => ?_
            cases ok with
            | false => exact h.givenUp
            | true =>
                refine h.mono (fun _ k => k) (after fun x y rel => ?_)
                obtain ⟨-, pte, rfl, nz⟩ := rel
                refine ⟨⟨pte, rfl⟩, fun _ zero => ?_⟩
                obtain ⟨pte', eq, zero⟩ := zero
                cases eq
                exact nz zero
      · obtain ⟨h, answer⟩ := h
        exact ⟨h.here, h.alone, h.shows, h.known, h.pages, getAvailability_state answer.symm⟩
  | zeroFrameMapped =>
      obtain ⟨x, hx, pte, rfl, -⟩ := seen
      exact ⟨h.here, h.alone, h.shows, h.known, skip h.pages ⟨pte, hx⟩⟩
  | newFrameMapped => exact ⟨h.here, h.alone, h.shows, h.known, skip h.pages seen⟩

/-- `map_and_clear` with new frames puts no page on the zero frame and leaves none of
its pages unmapped. -/
theorem triple_mapAndClear_new (vs : List Nat) (A : Nat → Prop) :
    (sys full).Triple t (Loading t d e p f S A g) (forAll (mapAndClearPage e false) vs)
      fun ok s => bif ok then Loading t d e p f S (fun q => A q ∧ ¬ Visits vs q) g s
        else GivenUp t d e p f s := by
  induction vs generalizing A with
  | nil =>
      refine Triple.ret fun s _ h => h.mono (fun _ k => k) fun st clean => ?_
      refine clean.mono (fun q hq => hq) fun q hq => ⟨hq, ?_⟩
      rintro ⟨v, hv, -⟩
      cases hv
  | cons v vs ih =>
      refine Triple.bind (triple_mapAndClearPage false v) fun ok => ?_
      cases ok with
      | false => exact Triple.ret fun _ _ h => h
      | true =>
          refine Triple.conseq (ih fun q => A q ∧ q ≠ pageOf v) (fun s _ h => ?_) fun ok s h => ?_
          · exact h.mono (fun _ k => k) fun st clean =>
              clean.mono (fun q hq => ⟨hq, by simp⟩) fun q hq => hq
          · cases ok with
            | false => exact h
            | true =>
                refine h.mono (fun _ k => k) fun st clean => clean.mono (fun q hq => hq) ?_
                rintro q ⟨⟨hq, ne⟩, others⟩
                refine ⟨hq, ?_⟩
                rintro ⟨u, hu, rfl⟩
                rcases List.mem_cons.mp hu with rfl | hu
                · exact ne rfl
                · exact others ⟨u, hu, rfl⟩

/-- `map_and_clear` to the zero frame touches only pages that were available. -/
theorem triple_mapAndClear_zero (vs : List Nat) :
    (sys full).Triple t (Loading t d e p f S A g) (forAll (mapAndClearPage e true) vs)
      fun ok s => bif ok then Loading t d e p f (fun q => S q ∧ ¬ A q) A g s
        else GivenUp t d e p f s := by
  have kept : (sys full).Triple t (Loading t d e p f (fun q => S q ∧ ¬ A q) A g)
      (forAll (mapAndClearPage e true) vs) fun ok s => bif ok then
        Loading t d e p f (fun q => S q ∧ ¬ A q) A g s else GivenUp t d e p f s := by
    refine Triple.forAll (I := fun _ => Loading t d e p f (fun q => S q ∧ ¬ A q) A g)
      (fun v rest => ?_) vs
    refine Triple.conseq (triple_mapAndClearPage true v) (fun _ _ h => h) fun ok s h => ?_
    cases ok with
    | false => exact h
    | true =>
        exact h.mono (fun _ k => k) fun st clean =>
          clean.mono (fun q hq => ⟨hq, fun _ _ => hq.2⟩) fun q hq => hq.1
  exact Triple.conseq kept (fun s _ h => h.mono (fun _ k => k) fun st clean =>
    clean.mono (fun q hq => hq.1) fun q hq => hq) fun _ _ h => h

/-! ### Bytes -/

/-- A page fault of the loader: the page gets a frame of its own, or the thread
dies. -/
theorem triple_fault_loading (v : Nat) :
    (sys full).Triple t (Loading t d e p f S A g) (handlePageFault e false true v) fun _ =>
      Building t d e p f none g Any fun st => Clean S A st ∧ OwnAt (pageOf v) st := by
  have repair : (sys full).Triple t (Loading t d e p f S A g) (repairPage e false true v)
      fun ok s => bif ok then
        Building t d e p f none g Any (fun st => Clean S A st ∧ OwnAt (pageOf v) st) s
      else Loading t d e p f S A g s := by
    refine Triple.bind (triple_getAvailability Building.stable e v) fun r => ?_
    refine Triple.conseq ?_ (fun s _ h => h.1) fun _ _ h => h
    rcases r with - | - | -
    · exact Triple.ret fun _ _ h => h
    · exact Triple.ret fun _ _ h => h
    refine Triple.conseq (triple_mapAndClearNew_build v) (fun _ _ h => h) fun ok s h => ?_
    cases ok with
    | false => exact h
    | true =>
        refine h.mono (fun _ k => k) fun st put => ?_
        obtain ⟨st₀, x, y, clean, -, ⟨-, pte, rfl, nz⟩, rfl⟩ := put
        refine ⟨⟨fun q user hq z hz zero => ?_, fun q user hz => ?_⟩, _, Function.update_self .., pte, rfl, nz⟩
        · by_cases same : q = pageOf v
          · rw [same, Function.update_self, Option.some.injEq] at hz
            obtain ⟨pte', eq, zero⟩ := zero
            rw [← hz] at eq
            cases eq
            exact nz zero
          · rw [Function.update_of_ne same] at hz
            exact clean.off q user hq z hz zero
        · have ne : q ≠ pageOf v := by
            rintro rfl
            rw [Function.update_self] at hz
            cases hz
          rw [Function.update_of_ne ne] at hz
          exact clean.avail q user hz
  refine Triple.bind repair fun ok => ?_
  cases ok with
  | true => exact Triple.ret fun _ _ h => h
  | false => exact triple_vanish_building

theorem triple_placeByte (v : Nat) (b : UInt8) (inside : S (pageOf v)) :
    (sys full).Triple t (Loading t d e p f S A g) (placeByte e v b) fun _ =>
      Loading t d e p f S A (Function.update g (v % virtualAddrEnd) b) := by
  refine Triple.bind (triple_place v b fun user st x clean hx => clean.off _ user inside x hx) fun ok => ?_
  cases ok with
  | true => exact Triple.ret fun _ _ h => h
  | false =>
      have fault : (sys full).Triple t (Building t d e p f none g Any fun st =>
          Clean S A st ∧ ∀ pte, st (pageOf v) ≠ some (.mapped pte))
          (handlePageFault e false true v) fun _ => Building t d e p f none g Any fun st =>
            Clean S A st ∧ OwnAt (pageOf v) st := by
        rintro s inv live h
        exact triple_fault_loading v s inv live (h.mono (fun _ k => k) fun _ clean => clean.1)
      refine Triple.bind fault fun _ => ?_
      refine Triple.bind (triple_place v b fun user st x clean hx => clean.1.off _ user inside x hx)
        fun ok => Triple.ret fun s _ h => ?_
      cases ok with
      | true => exact h.mono (fun _ k => k) fun _ clean => clean.1
      | false =>
          -- the page is mapped by now
          obtain ⟨⟨-, x, hx, pte, rfl, -⟩, unmapped⟩ := h.pages
          exact absurd hx (unmapped pte)

theorem triple_placeBytes (bytes : List UInt8) (v : Nat) (g : Nat → UInt8)
    (inside : ∀ i < bytes.length, S (pageOf (v + i))) :
    (sys full).Triple t (Loading t d e p f S A g) (placeBytes e v bytes) fun _ =>
      Loading t d e p f S A (placeOn g (placedAt v bytes)) := by
  induction bytes generalizing v g with
  | nil => exact Triple.ret fun _ _ h => h
  | cons b bytes ih =>
      refine Triple.bind (triple_placeByte v b (inside 0 (by simp))) fun _ => ?_
      refine ih (v + 1) _ fun i hi => ?_
      have := inside (i + 1) (by simpa using hi)
      rwa [Nat.add_right_comm, Nat.add_assoc]

/-! ### The stack -/

/-- Every page. -/
def Every : Nat → Prop := fun _ => True

theorem triple_pushVal (esp : Nat) (val : List UInt8) :
    (sys full).Triple t (Loading t d e p f Every A g) (pushVal e esp val) fun r s => match r with
      | none => GivenUp t d e p f s
      | some (_, placed) => Loading t d e p f Every A (placeOn g placed) s := by
  unfold pushVal
  split
  · exact Triple.ret fun _ _ h => h
  refine Triple.bind (triple_mapAndClear_new _ A) fun ok => ?_
  cases ok with
  | false => exact Triple.ret fun _ _ h => h
  | true =>
      refine Triple.bind (Triple.conseq (triple_placeBytes _ _ g fun _ _ => trivial)
        (fun s _ h => ?_) fun _ _ h => h) fun _ => Triple.ret fun _ _ h => h
      exact h.mono (fun _ k => k) fun _ clean => clean.mono (fun _ h => h) fun _ h => h.1

theorem triple_pushVals (vals : List (List UInt8)) (esp : Nat) (g : Nat → UInt8) :
    (sys full).Triple t (Loading t d e p f Every A g) (pushVals e esp vals) fun r s =>
      match r with
      | none => GivenUp t d e p f s
      | some (_, placed) => Loading t d e p f Every A (placeOn g placed) s := by
  induction vals generalizing esp g with
  | nil => exact Triple.ret fun _ _ h => h
  | cons val vals ih =>
      refine Triple.bind (triple_pushVal esp val) fun r => ?_
      rcases r with - | ⟨esp', placed⟩
      · exact Triple.ret fun _ _ h => h
      refine Triple.bind (ih esp' (placeOn g placed)) fun r => ?_
      rcases r with - | ⟨esps, placed'⟩
      · exact Triple.ret fun _ _ h => h
      · exact Triple.ret fun _ _ h => Building.append h

theorem triple_pushArguments (stackLow stackHigh : Nat) (args : List (List UInt8)) :
    (sys full).Triple t (Loading t d e p f Every A g) (pushArguments e stackLow stackHigh args)
      fun r s => match r with
        | none => GivenUp t d e p f s
        | some (_, placed) => Loading t d e p f Every A (placeOn g placed) s := by
  refine Triple.bind (triple_pushVals _ _ g) fun r => ?_
  rcases r with - | ⟨esps, strings⟩
  · exact Triple.ret fun _ _ h => h
  refine Triple.bind (triple_pushVals _ _ (placeOn g strings)) fun r => ?_
  rcases r with - | ⟨esps', array⟩
  · exact Triple.ret fun _ _ h => h
  refine Triple.bind (triple_pushVals _ _ (placeOn (placeOn g strings) array)) fun r => ?_
  rcases r with - | ⟨esps'', frame⟩
  · exact Triple.ret fun _ _ h => h
  · refine Triple.ret fun s _ h => ?_
    dsimp only at h ⊢
    rw [placeOn_append, placeOn_append]
    exact h

/-- The pages of a fresh directory. -/
def Fresh : (Nat → Option PageState) → Prop :=
  fun st => ∀ page, UserPage page → st page = some (.unmapped .unavailable)

theorem triple_mapRange (addr size : Nat) :
    (sys full).Triple t (Loading t d e p f Every (fun _ => False) g) (mapRange e addr size)
      fun ok s => bif ok then Loading t d e p f Every (fun _ => False) g s
        else GivenUp t d e p f s := by
  refine Triple.bind (triple_changeAvailability addr size) fun ok => ?_
  cases ok with
  | false => exact Triple.ret fun _ _ h => h
  | true =>
      refine Triple.conseq (triple_mapAndClear_new (pagesOf addr size) _) (fun _ _ h => h)
        fun ok s h => ?_
      cases ok with
      | false => exact h
      | true =>
          refine h.mono (fun _ k => k) fun _ clean => clean.mono (fun _ h => .inl h) ?_
          rintro q ⟨hq | hq, not⟩
          · exact hq.elim
          · exact absurd hq not

/-- A guest has all its memory mapped, any other its stack available. -/
theorem triple_prepareStack (guest : Bool) (stackLow : Nat) :
    (sys full).Triple t (Loading t d e p f Every (fun _ => False) g) (prepareStack e guest stackLow)
      fun ok s => bif ok then Loading t d e p f Every (fun _ => guest = false) g s
        else GivenUp t d e p f s := by
  -- for any range: the pages of a closed range would be listed while checking
  have both : ∀ addr size len, (sys full).Triple t (Loading t d e p f Every (fun _ => False) g)
      (if guest then mapRange e addr size else changeAvailability e stackLow len 1) fun ok s =>
        bif ok then Loading t d e p f Every (fun _ => guest = false) g s
        else GivenUp t d e p f s := by
    intro addr size len
    cases guest with
    | false =>
        refine Triple.conseq (triple_changeAvailability stackLow len) (fun _ _ h => h)
          fun ok s h => ?_
        cases ok with
        | false => exact h
        | true =>
            exact h.mono (fun _ k => k) fun _ clean =>
              clean.mono (fun _ h => .inl h) fun _ _ => rfl
    | true =>
        refine Triple.conseq (triple_mapRange addr size) (fun _ _ h => h) fun ok s h => ?_
        cases ok with
        | false => exact h
        | true =>
            exact h.mono (fun _ k => k) fun _ clean => clean.mono (fun _ h => h) fun _ h => h.elim
  exact both userMemStart guestMemSize (userStackLen * 4)

/-- After the stack is made, no page of a guest is on the zero frame or will be. -/
theorem triple_loadStack (guest : Bool) (args : List (List UInt8)) :
    (sys full).Triple t (Loading t d e p f Every (fun _ => False) g) (loadStack e guest args)
      fun r s => match r with
        | none => GivenUp t d e p f s
        | some placed => Loading t d e p f (fun _ => guest = true) (fun _ => guest = false)
            (placeOn g placed) s := by
  unfold loadStack
  generalize (if guest then userMemStart + guestMemSize else 0) = stackHigh
  dsimp only
  generalize (stackHigh + virtualAddrEnd - userStackLen * 4) % virtualAddrEnd = stackLow
  refine Triple.bind (triple_prepareStack guest stackLow) fun ok => ?_
  cases ok with
  | false => exact Triple.ret fun _ _ h => h
  | true =>
      refine Triple.bind (triple_pushArguments stackLow stackHigh args) fun r => ?_
      rcases r with - | ⟨esp, placed⟩
      · exact Triple.ret fun _ _ h => h
      refine Triple.bind (triple_mapAndClear_zero _) fun ok => ?_
      cases ok with
      | false => exact Triple.ret fun _ _ h => h
      | true =>
          refine Triple.ret fun s _ h => h.mono (fun _ k => k) fun _ clean => ?_
          exact clean.mono (fun _ hq => ⟨trivial, by simp [hq]⟩) fun _ h => h

/-! ### The sections -/

theorem triple_copySection (v : Nat) (file : List UInt8) (sec : Section) (g : Nat → UInt8)
    (inside : ∀ i < sec.len, S (pageOf (v + i))) :
    (sys full).Triple t (Loading t d e p f S A g) (copySection e v file sec) fun r s => match r with
      | none => GivenUp t d e p f s
      | some placed => Loading t d e p f S A (placeOn g placed) s := by
  unfold copySection
  cases hb : getbytes file sec.off sec.len with
  | none => exact Triple.ret fun _ _ h => h.givenUp
  | some bytes =>
      have length : bytes.length ≤ sec.len := by
        unfold getbytes at hb
        split at hb
        · cases hb
        · cases hb
          exact List.length_take_le ..
      dsimp only
      split
      · exact Triple.ret fun _ _ h => h.givenUp
      · exact Triple.bind (triple_placeBytes bytes v g fun i hi => inside i (by omega)) fun _ =>
          Triple.ret fun _ _ h => h

theorem triple_loadSections {load : Section → Program (Option Placed)} (secs : List Section)
    (g : Nat → UInt8)
    (each : ∀ sec ∈ secs, ∀ g, (sys full).Triple t (Loading t d e p f S A g) (load sec) fun r s =>
      match r with
      | none => GivenUp t d e p f s
      | some placed => Loading t d e p f S A (placeOn g placed) s) :
    (sys full).Triple t (Loading t d e p f S A g) (loadSections load secs) fun r s => match r with
      | none => GivenUp t d e p f s
      | some placed => Loading t d e p f S A (placeOn g placed) s := by
  induction secs generalizing g with
  | nil => exact Triple.ret fun _ _ h => h
  | cons sec secs ih =>
      refine Triple.bind (each sec List.mem_cons_self g) fun r => ?_
      rcases r with - | placed
      · exact Triple.ret fun _ _ h => h
      refine Triple.bind (ih (placeOn g placed) fun sec' mem => each sec' (List.mem_cons_of_mem sec mem))
        fun r => ?_
      rcases r with - | placed'
      · exact Triple.ret fun _ _ h => h
      · exact Triple.ret fun _ _ h => Building.append h

theorem triple_loadGuest (image : Image) :
    (sys full).Triple t (Loading t d e p f Every A g) (loadGuest e image) fun r s => match r with
      | none => GivenUp t d e p f s
      | some placed => Loading t d e p f Every A (placeOn g placed) s :=
  triple_loadSections image.sections g fun sec _ g =>
    triple_copySection _ image.file sec g fun _ _ => trivial

/-- The byte at an offset of a range lies in a page of the walk over the range. -/
theorem visits_pagesOf {addr size i : Nat} (h : i < size) :
    Visits (pagesOf addr size) (pageOf (addr + i)) := by
  refine ⟨(addr + i) / pageSize * pageSize, ?_, ?_⟩
  · rw [pagesOf, if_neg (by omega)]
    refine List.mem_map.mpr ⟨(addr + i) / pageSize - addr / pageSize, List.mem_range.mpr ?_, ?_⟩ <;>
      simp only [pageSize] <;> omega
  · simp only [pageOf, pageSize, virtualAddrEnd]
    omega

/-- A walk over a range visits the pages of its bytes. -/
theorem visits_iff {addr size q : Nat} :
    Visits (pagesOf addr size) q ↔ ∃ v, addr ≤ v ∧ v < addr + size ∧ pageOf v = q := by
  constructor
  · rintro ⟨w, mem, rfl⟩
    by_cases none : size = 0
    · rw [pagesOf, if_pos none] at mem
      cases mem
    rw [pagesOf, if_neg none, List.mem_map] at mem
    obtain ⟨i, range, rfl⟩ := mem
    rw [List.mem_range] at range
    refine ⟨max addr (addr / pageSize * pageSize + i * pageSize), ?_, ?_, ?_⟩ <;>
      simp only [pageOf, pageSize, virtualAddrEnd] at * <;> omega
  · rintro ⟨v, low, high, rfl⟩
    have visits : Visits (pagesOf addr size) (pageOf (addr + (v - addr))) :=
      visits_pagesOf (by omega)
    rwa [Nat.add_sub_cancel' low] at visits

/-- The pages of some ranges. -/
def InRanges (ranges : List (Nat × Nat)) (q : Nat) : Prop :=
  ∃ range ∈ ranges, Visits (pagesOf range.1 range.2) q

theorem triple_ranges (ranges : List (Nat × Nat)) (S : Nat → Prop) :
    (sys full).Triple t (Loading t d e p f S Every g)
      (forAll (fun range => changeAvailability e range.1 range.2 1) ranges) fun ok s => bif ok then
        Loading t d e p f (fun q => S q ∨ InRanges ranges q) Every g s else GivenUp t d e p f s := by
  induction ranges generalizing S with
  | nil =>
      refine Triple.ret fun s _ h => h.mono (fun _ k => k) fun st clean => ?_
      refine clean.mono (fun q hq => hq.resolve_right ?_) fun q hq => hq
      rintro ⟨range, mem, -⟩
      cases mem
  | cons range ranges ih =>
      refine Triple.bind (triple_changeAvailability range.1 range.2) fun ok => ?_
      cases ok with
      | false => exact Triple.ret fun _ _ h => h
      | true =>
          refine Triple.conseq (ih _) (fun s _ h => h.mono (fun _ k => k) fun _ clean =>
            clean.mono (fun _ h => h) fun _ _ => trivial) fun ok s h => ?_
          cases ok with
          | false => exact h
          | true =>
              refine h.mono (fun _ k => k) fun st clean => clean.mono ?_ fun _ h => h
              rintro q (hq | ⟨range', mem, visits⟩)
              · exact .inl (.inl hq)
              · rcases List.mem_cons.mp mem with rfl | mem
                · exact .inl (.inr visits)
                · exact .inr ⟨range', mem, visits⟩

theorem triple_loadSection (file : List UInt8) (sec : Section) (g : Nat → UInt8)
    (inside : ∀ i < sec.len, S (pageOf (sec.start + i))) :
    (sys full).Triple t (Loading t d e p f S Every g) (loadSection e file sec) fun r s =>
      match r with
      | none => GivenUp t d e p f s
      | some placed => Loading t d e p f S Every (placeOn g placed) s := by
  refine Triple.bind (triple_mapAndClear_new _ Every) fun ok => ?_
  cases ok with
  | false => exact Triple.ret fun _ _ h => h
  | true =>
      exact Triple.conseq (triple_copySection _ file sec g inside) (fun s _ h =>
        h.mono (fun _ k => k) fun _ clean => clean.mono (fun _ h => h) fun _ _ => trivial)
        fun _ _ h => h

/-- Access bits change on pages that are not on the zero frame, or are cleared. -/
theorem triple_changeAccess (addr size access : Nat)
    (safe : access = 0 ∨ ∀ q, Visits (pagesOf addr size) q → S q) :
    (sys full).Triple t (Loading t d e p f S Every g) (changeAccess e addr size access) fun ok s =>
      bif ok then Loading t d e p f S Every g s else GivenUp t d e p f s := by
  have walk : ∀ vs : List Nat, (∀ v ∈ vs, access = 0 ∨ S (pageOf v)) →
      (sys full).Triple t (Loading t d e p f S Every g)
        (forAll (fun v => act (.setAccess e v access)) vs) fun ok s =>
        bif ok then Loading t d e p f S Every g s else GivenUp t d e p f s := by
    intro vs each
    induction vs with
    | nil => exact Triple.ret fun _ _ h => h
    | cons v vs ih =>
        refine Triple.bind (triple_setAccess_build v access ?_) fun ok => ?_
        · rcases each v List.mem_cons_self with zero | hv
          · exact .inl zero
          · exact .inr fun user st x clean hx => clean.off _ user hv x hx
        cases ok with
        | false => exact Triple.ret fun _ _ h => h.givenUp
        | true =>
            refine Triple.conseq (ih fun u hu => each u (List.mem_cons_of_mem v hu))
              (fun s _ h => h.mono (fun _ k => k) fun st put => ?_) fun _ _ h => h
            obtain ⟨st₀, x, y, clean, hx, ⟨pte, rw, rfl, rfl⟩, rfl⟩ := put
            refine ⟨fun q user hq z hz zero => ?_, fun _ _ _ => trivial⟩
            by_cases same : q = pageOf v
            · rw [same, Function.update_self, Option.some.injEq] at hz
              obtain ⟨pte', eq, zero⟩ := zero
              rw [← hz] at eq
              cases eq
              exact clean.off _ (same ▸ user) (same ▸ hq) _ hx ⟨pte, rfl, zero⟩
            · rw [Function.update_of_ne same] at hz
              exact clean.off q user hq z hz zero
  refine walk (pagesOf addr size) fun v hv => ?_
  rcases safe with zero | all
  · exact .inl zero
  · exact .inr (all _ ⟨v, hv, rfl⟩)

theorem triple_loadUser (image : Image) :
    (sys full).Triple t (Loading t d e p f (fun _ => False) Every g) (loadUser e image) fun r s =>
      match r with
      | none => GivenUp t d e p f s
      | some placed => Building t d e p f none (placeOn g placed) Any Any s := by
  refine Triple.bind (triple_ranges _ _) fun ok => ?_
  cases ok with
  | false => exact Triple.ret fun _ _ h => h
  | true =>
      -- every byte of a section lies in a page found not mapped
      have inside : ∀ sec ∈ [image.txt, image.rodat, image.dat], ∀ q,
          Visits (pagesOf sec.start sec.len) q → InRanges
            ([image.txt, image.rodat, image.dat].map (fun s => (s.start, s.len)) ++
              [(image.bssStart, image.bssLen)]) q := by
        intro sec mem q hq
        exact ⟨(sec.start, sec.len), List.mem_append_left _ (List.mem_map.mpr ⟨sec, mem, rfl⟩), hq⟩
      have sub : ∀ sec ∈ image.sections, sec ∈ [image.txt, image.rodat, image.dat] := by
        intro sec mem
        rcases List.mem_cons.mp mem with rfl | mem
        · simp
        · exact List.mem_cons_of_mem _ (List.mem_of_mem_filter mem)
      refine Triple.bind (triple_loadSections image.sections g fun sec mem g =>
        triple_loadSection image.file sec g fun i hi =>
          .inr (inside sec (sub sec mem) _ (visits_pagesOf hi))) fun r => ?_
      rcases r with - | placed
      · exact Triple.ret fun _ _ h => h
      refine Triple.bind (triple_changeAccess _ _ 0 (.inl rfl)) fun ok => ?_
      cases ok with
      | false => exact Triple.ret fun _ _ h => h
      | true =>
      refine Triple.bind (triple_changeAccess _ _ 0 (.inl rfl)) fun ok => ?_
      cases ok with
      | false => exact Triple.ret fun _ _ h => h
      | true =>
      refine Triple.bind (triple_changeAccess _ _ 1
        (.inr fun q hq => .inr (inside image.dat (by simp) q hq))) fun ok => ?_
      cases ok with
      | false => exact Triple.ret fun _ _ h => h
      | true =>
      refine Triple.bind (triple_mapAndClear_zero _) fun ok => ?_
      cases ok with
      | false => exact Triple.ret fun _ _ h => h
      | true => exact Triple.ret fun _ _ h => h.forget

/-! ### The call -/

/-- No page of a fresh directory is mapped or available. -/
theorem Fresh.clean {st : Nat → Option PageState} (fresh : Fresh st) :
    Clean Every (fun _ => False) st := by
  refine ⟨fun q user _ x hx => ?_, fun q user hq => ?_⟩
  · rw [fresh q user, Option.some.injEq] at hx
    rintro ⟨pte, rfl, -⟩
    cases hx
  · rw [fresh q user] at hq
    cases hq

theorem triple_loadImage (image : Image) (args : List (List UInt8)) :
    (sys full).Triple t (Building t d e p f none (fun _ => 0) Any Fresh) (loadImage e image args)
      fun r s => match r with
        | none => GivenUp t d e p f s
        | some placed => Building t d e p f none (place placed) Any Any s := by
  have stack : (sys full).Triple t (Building t d e p f none (fun _ => 0) Any Fresh)
      (loadStack e image.guest args) fun r s => match r with
        | none => GivenUp t d e p f s
        | some placed => Loading t d e p f (fun _ => image.guest = true)
            (fun _ => image.guest = false) (placeOn (fun _ => 0) placed) s := by
    rintro s inv live h
    exact triple_loadStack image.guest args s inv live (h.mono (fun _ k => k) fun _ => Fresh.clean)
  have sections : ∀ g, (sys full).Triple t (Loading t d e p f (fun _ => image.guest = true)
      (fun _ => image.guest = false) g) (if image.guest then loadGuest e image else loadUser e image)
      fun r s => match r with
        | none => GivenUp t d e p f s
        | some placed => Building t d e p f none (placeOn g placed) Any Any s := by
    intro g
    cases image.guest with
    | true =>
        refine Triple.conseq (triple_loadGuest (A := Every) image) (fun s _ h => h.mono (fun _ k => k)
          fun _ clean => clean.mono (fun _ _ => rfl) fun _ _ => trivial) fun r s h => ?_
        cases r with
        | none => exact h
        | some placed => exact h.forget
    | false =>
        exact Triple.conseq (triple_loadUser image) (fun s _ h => h.mono (fun _ k => k)
          fun _ clean => clean.mono (fun _ h => h.elim) fun _ _ => trivial) fun _ _ h => h
  refine Triple.bind stack fun r => ?_
  rcases r with - | placed
  · exact Triple.ret fun _ _ h => h
  refine Triple.bind (sections _) fun r => ?_
  rcases r with - | placed'
  · exact Triple.ret fun _ _ h => h
  · exact Triple.ret fun _ _ h => Building.append h

/-- `load_executable` of a process with one thread: the process goes on in the new
image, or in the old one. -/
theorem triple_loadExecutable (image : Option Image) (name : List UInt8) (args : List (List UInt8)) :
    (sys full).Triple t (Solo t d f p) (loadExecutable image name args) fun _ => Ready t := by
  cases image with
  | none => exact Triple.ret fun s _ h => ⟨p, d, f, h.here⟩
  | some image =>
      refine triple_current_solo fun pr dir => ?_
      subst dir
      refine Triple.bind triple_constructPageDir fun e => ?_
      cases e with
      | none => exact Triple.ret fun s _ h => ⟨p, pr.dir, f, h.here⟩
      | some e =>
          refine Triple.bind (triple_mallocs_build _) fun ok => ?_
          cases ok with
          | false => exact Triple.conseq triple_destruct_build (fun s _ h => ⟨_, h⟩) fun _ _ h => h
          | true =>
              have load : (sys full).Triple t (Building t pr.dir e p f none (fun _ => 0)
                  (fun _ => True)
                  (fun st => ∀ page, UserPage page → st page = some (.unmapped .unavailable)))
                  (loadImage e image args) fun r s => match r with
                    | none => GivenUp t pr.dir e p f s
                    | some placed => Building t pr.dir e p f none (place placed) Any Any s :=
                triple_loadImage image args
              refine Triple.bind load fun r => ?_
              rcases r with - | placed
              · exact triple_destruct_build
              · refine Triple.bind (triple_newImage image.guest placed) fun _ => ?_
                exact Triple.conseq triple_destructPageDir (fun _ _ h => h) fun _ _ h => ready_of_here h

theorem triple_exec (image : Option Image) (name : List UInt8) (args : List (List UInt8)) :
    (sys full).Triple t (Ready t) (exec image name args) fun _ => Ready t :=
  triple_of_alone fun _ _ _ => triple_loadExecutable image name args

end OsKernel.Memory
