/-
`fork_ctrl_blk` gives the child the flat memory of its parent.

The loop goes through the user pages of the parent in order. Its invariant: the
directory of the child shows the memory of the parent up to the current page and
zeros from there on (`upTo`). A page that the parent has not mapped, or mapped to
the zero frame, shows zeros in both; any other is mapped to a new frame and
copied.
-/

import OsKernel.Memory.Verify

namespace OsKernel.Memory

open OsKernel.Vm Prog Sys

/-- The memory `f` below a page, and zeros from there on. -/
def upTo (page : Nat) (f : Nat → UInt8) : Nat → UInt8 := fun w => if pageOf w < page then f w else 0

variable {full : Bool} {t d e p : Nat} {f g : Nat → UInt8}
  {known pages : (Nat → Option PageState) → Prop} {s : Kernel}

/-- No knowledge. -/
def Any : (Nat → Option PageState) → Prop := fun _ => True

theorem Building.forget {bad : Option Nat} (h : Building t d e p f bad g known pages s) :
    Building t d e p f bad g Any Any s :=
  h.mono (fun _ _ => trivial) fun _ _ => trivial

theorem Building.of_eq {g' : Nat → UInt8} (h : Building t d e p f none g known pages s)
    (eq : s.shared p = false → ∀ w, UserAddr w → g' w = g w) :
    Building t d e p f none g' known pages s :=
  ⟨h.here, h.alone, fun hs w user => by rw [eq hs w user]; exact h.shows hs w user, h.known,
    h.pages⟩

/-- Pages of the parent that show zeros are done. -/
theorem Building.advance (inv : s.Inv full) {page next : Nat} (le : page ≤ next)
    (h : Building t d e p f none (upTo page f) known pages s)
    (zeros : ∀ st, known st → ∀ q, page ≤ q → q < next → ∃ x, st q = some x ∧
      (Unmapped x ∨ OnZero x)) :
    Building t d e p f none (upTo next f) Any Any s := by
  refine (h.of_eq fun hs w user => ?_).forget
  unfold upTo
  by_cases low : pageOf w < page
  · rw [if_pos low, if_pos (by omega)]
  rw [if_neg low]
  split
  · rename_i high
    have parent := h.here.shows hs w user
    simp only [reduceCtorEq, ↓reduceIte] at parent
    obtain ⟨x, state, ⟨avail, rfl⟩ | ⟨pte, rfl, zero⟩⟩ :=
      zeros _ (h.known hs) (pageOf w) (Nat.not_lt.mp low) high
    · rw [parent, byteAt_unmapped state]
    · rw [parent, byteAt_zero inv.mem state zero]
  · rfl

theorem triple_check_build (v : Nat) :
    (sys full).Triple t (Building t d e p f none g Any pages) (act (.checkUserPage d v))
      fun r => Building t d e p f none g (Seen (pageOf v) r) pages := by
  refine Triple.conseq (triple_checkUserPage Building.stable d v) (fun _ _ h => h) fun r s h => ?_
  obtain ⟨h, rfl⟩ := h
  exact ⟨h.here, h.alone, h.shows, fun _ => checkUserPage_seen s.mem d v, h.pages⟩

theorem triple_getAvailability_build (a v : Nat) :
    (sys full).Triple t (Building t d e p f none g known pages) (act (.getAvailability a v))
      fun _ => Building t d e p f none g known pages :=
  Triple.conseq (triple_getAvailability Building.stable a v) (fun _ _ h => h) fun _ _ h => h.1

/-- `set_availability`, when it does not matter what the page is like. -/
theorem triple_setAvailability_any (v availability : Nat) :
    (sys full).Triple t (Building t d e p f none g known Any)
      (act (.setAvailability e v availability)) fun _ => Building t d e p f none g known Any := by
  refine Triple.conseq (triple_setAvailability_build v availability) (fun _ _ h => h) fun ok s h => ?_
  cases ok with
  | false => exact h
  | true => exact h.mono (fun _ k => k) fun _ _ => trivial

theorem triple_forkTable (v : Nat) (list : List Nat) :
    (sys full).Triple t (Building t d e p f none g known Any) (forkTable d e v list)
      fun _ => Building t d e p f none g known Any := by
  refine Triple.bind (triple_getAvailability_build d v) fun r => ?_
  rcases r with - | - | -
  · exact Triple.ret fun _ _ h => h
  · exact Triple.ret fun _ _ h => h
  · refine Triple.conseq (Triple.forAll (I := fun _ => Building t d e p f none g known Any)
      (F := Building t d e p f none g known Any) (fun page rest => ?_) list) (fun _ _ h => h)
      fun ok _ h => ?_
    · refine Triple.conseq (triple_setAvailability_any _ 1) (fun _ _ h => h) fun ok _ h => ?_
      cases ok <;> exact h
    · cases ok <;> exact h

/-- The page is mapped to a frame of its own. -/
def OwnAt (page : Nat) : (Nat → Option PageState) → Prop := fun st => ∃ x, st page = some x ∧ OnOwn x

/-- A page of the parent with a frame of its own is copied. -/
theorem triple_forkPage {v : Nat} (mapped : ∀ st, known st → ∃ pte, st (pageOf v) = some (.mapped pte)) :
    (sys full).Triple t (Building t d e p f none g known Any) (forkPage d e v) fun ok s => bif ok then
        Building t d e p f none (fun w => if pageOf w = pageOf v then f w else g w) known Any s
      else Building t d e p f none g known Any s := by
  have map : (sys full).Triple t (Building t d e p f none g known Any)
      (forkMap e v (act (.mapNewFrame e v))) fun ok s => bif ok then UserPage (pageOf v) ∧
        Building t d e p f (some (pageOf v)) g known (OwnAt (pageOf v)) s
      else Building t d e p f none g known Any s := by
    refine Triple.bind (triple_setAvailability_any v 1) fun ok => ?_
    cases ok with
    | false => exact Triple.ret fun _ _ h => h
    | true =>
        refine Triple.conseq (triple_mapNewFrame_build v) (fun _ _ h => h) fun ok s h => ?_
        cases ok with
        | false => exact h
        | true =>
            refine ⟨h.1, h.2.mono (fun _ k => k) fun st put => ?_⟩
            obtain ⟨st₀, x, y, -, -, ⟨-, own⟩, rfl⟩ := put
            exact ⟨y, Function.update_self .., own⟩
  refine Triple.bind map fun ok => ?_
  cases ok with
  | false => exact Triple.ret fun _ _ h => h
  | true =>
      intro s inv live pre
      refine (Triple.bind (triple_copyPage pre.1 mapped fun _ own => own) fun _ => ?_) s inv live pre.2
      refine Triple.bind (triple_getAccess Building.stable d v) fun r => ?_
      refine Triple.conseq ?_ (fun _ _ h => h.1) fun _ _ h => h
      cases r with
      | none => exact Triple.ret fun _ _ h => h.mono (fun _ k => k) fun _ _ => trivial
      | some access =>
          refine Triple.bind (triple_setAccess_build v access.toNat (.inr ?_)) fun ok => ?_
          · rintro - st x ⟨y, hy, pte, rfl, nz⟩ hx ⟨pte', rfl, zero⟩
            rw [hy, Option.some.injEq, PageState.mapped.injEq] at hx
            exact nz (hx ▸ zero)
          · refine Triple.ret fun s _ h => ?_
            cases ok with
            | false => exact h.mono (fun _ k => k) fun _ _ => trivial
            | true => exact h.mono (fun _ k => k) fun _ _ => trivial

/-- A page mapped to the zero frame in the child as in the parent. -/
theorem triple_forkMap_zero (v : Nat) :
    (sys full).Triple t (Building t d e p f none g known Any)
      (forkMap e v (act (.mapZeroFrame e v))) fun _ => Building t d e p f none g known Any := by
  refine Triple.bind (triple_setAvailability_any v 1) fun ok => ?_
  cases ok with
  | false => exact Triple.ret fun _ _ h => h
  | true =>
      refine Triple.conseq (triple_mapZeroFrame_build v) (fun _ _ h => h) fun ok s h => ?_
      cases ok with
      | false => exact h
      | true => exact h.mono (fun _ k => k) fun _ _ => trivial

theorem pageOf_page {page : Nat} (h : page < virtualAddrEnd / pageSize) :
    pageOf (page * pageSize) = page := by
  simp only [pageOf, pageSize, virtualAddrEnd] at *
  omega

/-- The loop from a page on: when it succeeds, the child shows the memory of the
parent. -/
theorem triple_forkPages (page : Nat) :
    (sys full).Triple t (Building t d e p f none (upTo page f) Any Any) (forkPages d e page)
      fun ok s => bif ok then Building t d e p f none f Any Any s
        else ∃ g, Building t d e p f none g Any Any s := by
  -- the measure of the loop: the pages still to come
  generalize hn : virtualAddrEnd / pageSize - page = n
  induction n using Nat.strong_induction_on generalizing page with
  | _ n ih =>
  have goOn : ∀ next, page < next → page < virtualAddrEnd / pageSize →
      (sys full).Triple t (Building t d e p f none (upTo next f) Any Any) (forkPages d e next)
        fun ok s => bif ok then Building t d e p f none f Any Any s
          else ∃ g, Building t d e p f none g Any Any s :=
    fun next lt bound => ih (virtualAddrEnd / pageSize - next) (by omega) next rfl
  have stop : ∀ {k : (Nat → Option PageState) → Prop} {s : Kernel},
      Building t d e p f none (upTo page f) k Any s → ∃ g, Building t d e p f none g Any Any s :=
    fun h => ⟨_, h.forget⟩
  rw [forkPages]
  split
  swap
  · rename_i outside
    refine Triple.ret fun s _ h => h.of_eq fun _ w user => ?_
    have := pageOf_lt w
    rw [upTo, if_pos (by omega)]
  rename_i bound
  have here : pageOf (page * pageSize) = page := pageOf_page bound
  refine Triple.bind (triple_check_build (page * pageSize)) fun r => ?_
  rw [here]
  rcases r with - | - | - | - | -
  · exact Triple.ret fun _ _ h => stop h
  · -- the PDE is not present
    have nextLt : page < (page / pteCount + 1) * pteCount := by
      have := Nat.lt_div_mul_add (a := page) (b := pteCount) (by decide)
      simp only [pteCount, pageSize, Nat.reduceDiv] at *
      omega
    refine Triple.bind (triple_forkTable _ _) fun ok => ?_
    cases ok with
    | false => exact Triple.ret fun _ _ h => stop h
    | true =>
        refine Triple.conseq (goOn _ nextLt bound) (fun s inv h => ?_) fun _ _ h => h
        refine h.advance inv (Nat.le_of_lt nextLt) fun st seen q ge lt => ?_
        have same : q / pteCount = page / pteCount := by
          simp only [pteCount, pageSize, Nat.reduceDiv] at *
          omega
        obtain ⟨x, hx, unmapped⟩ := seen q same
        exact ⟨x, hx, .inl unmapped⟩
  · -- the PTE is not present
    refine Triple.bind (triple_getAvailability_build d _) fun avail => ?_
    cases avail with
    | none => exact Triple.ret fun _ _ h => stop h
    | some avail =>
        refine Triple.bind (triple_setAvailability_any _ _) fun ok => ?_
        cases ok with
        | false => exact Triple.ret fun _ _ h => stop h
        | true =>
            refine Triple.conseq (goOn _ (Nat.lt_succ_self page) bound) (fun s inv h => ?_)
              fun _ _ h => h
            refine h.advance inv (Nat.le_succ page) fun st seen q ge lt => ?_
            obtain ⟨x, hx, unmapped⟩ := seen
            obtain rfl : q = page := by omega
            exact ⟨x, hx, .inl unmapped⟩
  · -- the zero frame
    refine Triple.bind (triple_forkMap_zero _) fun ok => ?_
    cases ok with
    | false => exact Triple.ret fun _ _ h => stop h
    | true =>
        refine Triple.conseq (goOn _ (Nat.lt_succ_self page) bound) (fun s inv h => ?_)
          fun _ _ h => h
        refine h.advance inv (Nat.le_succ page) fun st seen q ge lt => ?_
        obtain ⟨x, hx, zero⟩ := seen
        obtain rfl : q = page := by omega
        exact ⟨x, hx, .inr zero⟩
  · -- a frame of its own
    refine Triple.bind (triple_forkPage fun st seen => here.symm ▸ seen) fun ok => ?_
    cases ok with
    | false => exact Triple.ret fun _ _ h => stop h
    | true =>
        refine Triple.conseq (goOn _ (Nat.lt_succ_self page) bound) (fun s inv h => ?_)
          fun _ _ h => h
        refine (h.of_eq fun _ w _ => ?_).forget
        rw [here, upTo, upTo]
        by_cases same : pageOf w = page
        · rw [if_pos (by omega), if_pos same]
        · rw [if_neg same]
          exact if_congr (by omega) rfl rfl

theorem triple_mallocs_build (sizes : List Nat) :
    (sys full).Triple t (Building t d e p f none g known pages) (mallocs sizes)
      fun _ => Building t d e p f none g known pages := by
  refine Triple.conseq (Triple.forAll (I := fun _ => Building t d e p f none g known pages)
    (F := Building t d e p f none g known pages) (fun size rest => ?_) sizes) (fun _ _ h => h)
    fun ok _ h => ?_
  · refine Triple.conseq (triple_malloc_build size) (fun _ _ h => h) fun ok _ h => ?_
    cases ok <;> exact h
  · cases ok <;> exact h

/-- A directory given up. -/
theorem triple_destruct_build :
    (sys full).Triple t (fun s => ∃ g, Building t d e p f none g known pages s)
      (act (.destructPageDir e)) fun _ => Ready t := by
  rintro s inv live ⟨g, h⟩
  exact (triple_destructPageDir s inv live ⟨p, f, h.here⟩).mono fun _ _ h => ready_of_here h

/-! ### The call -/

theorem alone_of_count (inv : s.Inv full) (ht : s.thread t = some p)
    (one : s.threadAliveCount p = 1) : s.Alone t := by
  have member : ∀ u, s.thread u = some p →
      u ∈ (List.range s.threadCount).filter fun u => s.thread u = some p := by
    intro u hu
    have : u < s.threadCount := by
      by_contra late
      rw [(inv.fresh u (Nat.not_lt.mp late)).1] at hu
      cases hu
    simp [this, hu]
  obtain ⟨x, hx⟩ := List.length_eq_one_iff.mp one
  intro q u hq hu
  rw [ht, Option.some.injEq] at hq
  subst hq
  have h₁ := member t ht
  have h₂ := member u hu
  rw [hx, List.mem_singleton] at h₁ h₂
  exact h₂.trans h₁.symm

/-- A program that a process runs only while it has one thread. -/
theorem triple_of_alone {k : Program Unit}
    (solo : ∀ p d f, (sys full).Triple t (Solo t d f p) k fun _ => Ready t) :
    (sys full).Triple t (Ready t) (do if (← act .threadAliveCount) = 1 then k else pure ())
      fun _ => Ready t := by
  have count : (sys full).Triple t (Ready t) (act .threadAliveCount) fun r s =>
      Ready t s ∧ r = (Kernel.exec t .threadAliveCount s).2 :=
    triple_read (a := .threadAliveCount) Ready.stable _ fun _ => rfl
  refine Triple.bind count fun r => ?_
  split
  · rename_i one
    rintro s inv live ⟨⟨p, d, f, h⟩, eq⟩
    rw [Kernel.exec, h.thread] at eq
    exact solo p d f s inv live ⟨h, alone_of_count inv h.thread (eq.symm.trans one)⟩
  · exact Triple.ret fun _ _ h => h.1

/-- A program that is given the PCB of its thread, the only one of its process. -/
theorem triple_current_solo {α : Type} {k : Option Proc → Program α} {Q : α → Kernel → Prop}
    (next : ∀ pr, pr.dir = d → (sys full).Triple t (Solo t d f p) (k (some pr)) Q) :
    (sys full).Triple t (Solo t d f p) (act .current >>= k) Q := by
  refine Triple.bind (triple_current Solo.stable) fun r => ?_
  rintro s inv live ⟨solo, answer⟩
  obtain ⟨pr, hp, dir⟩ := Option.map_eq_some_iff.mp solo.here.dir
  rw [Kernel.proc, solo.here.thread, Option.bind_some, hp] at answer
  subst answer
  exact next pr dir s inv live solo

theorem triple_forkCtrlBlk :
    (sys full).Triple t (Solo t d f p) forkCtrlBlk fun _ => Ready t := by
  refine triple_current_solo fun pr dir => ?_
  subst dir
  refine Triple.bind triple_constructPageDir fun child => ?_
  cases child with
  | none => exact Triple.ret fun s _ h => ⟨p, pr.dir, f, h.here⟩
  | some e =>
      refine Triple.bind (triple_mallocs_build _) fun ok => ?_
      cases ok with
      | false =>
          exact Triple.conseq triple_destruct_build (fun s _ h => ⟨_, h⟩) fun _ _ h => h
      | true =>
          -- the fresh directory shows the memory of the parent up to its first user page
          have start : (sys full).Triple t (Building t pr.dir e p f none (fun _ => 0)
              (fun _ => True)
              (fun st => ∀ page, UserPage page → st page = some (.unmapped .unavailable)))
              (forkPages pr.dir e kernelPageCount) fun ok s => bif ok then
                Building t pr.dir e p f none f Any Any s
              else ∃ g, Building t pr.dir e p f none g Any Any s := by
            refine Triple.conseq (triple_forkPages kernelPageCount) (fun s _ h => ?_) fun _ _ h => h
            refine (h.of_eq fun _ w user => ?_).forget
            exact if_neg (Nat.not_lt.mpr user.page.1)
          refine Triple.bind start fun ok => ?_
          cases ok with
          | false => exact triple_destruct_build
          | true =>
              refine Triple.bind (triple_mallocs_build _) fun ok => ?_
              cases ok with
              | true => exact triple_newProcess pr.allocs
              | false =>
                  exact Triple.conseq triple_destruct_build (fun s _ h => ⟨_, h⟩) fun _ _ h => h

theorem triple_fork : (sys full).Triple t (Ready t) fork fun _ => Ready t :=
  triple_of_alone fun _ _ _ => triple_forkCtrlBlk

end OsKernel.Memory
