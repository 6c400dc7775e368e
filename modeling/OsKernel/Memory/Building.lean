/-
One rule for each action on a directory under construction.

The rules are those of `Rules` again, with two differences: nothing is recorded,
since no process runs in the directory yet, and the state of each page is tracked
(`PutPage`), since the loader must not store through a page that is mapped to the
zero frame.
-/

import OsKernel.Memory.Lifecycle

namespace OsKernel.Memory

open OsKernel.Vm

/-- The page is not mapped. -/
def Unmapped (x : PageState) : Prop := ∃ avail, x = .unmapped avail

/-- The page is mapped to the zero frame. -/
def OnZero (x : PageState) : Prop := ∃ pte, x = .mapped pte ∧ pte.pageAddr * pageSize = zeroFrame

/-- The page is mapped to a frame of its own. -/
def OnOwn (x : PageState) : Prop := ∃ pte, x = .mapped pte ∧ pte.pageAddr * pageSize ≠ zeroFrame

/-- What `set_availability`, `map_zero_frame`, `map_new_frame` and `set_access` do to
the state of a page. -/
def SetAvailable (availability : Nat) (x y : PageState) : Prop :=
  Unmapped x ∧ ∃ avail, Availability.ofNat? availability = some avail ∧ y = .unmapped avail

def MapZero (x y : PageState) : Prop := Unmapped x ∧ OnZero y

def MapOwn (x y : PageState) : Prop := Unmapped x ∧ OnOwn y

def SetReadWrite (x y : PageState) : Prop :=
  ∃ pte rw, x = .mapped pte ∧ y = .mapped { pte with rw := rw }

/-- One page went from one state to another, the others are as `pages` knew them. -/
def PutPage (page : Nat) (rel : PageState → PageState → Prop)
    (pages : (Nat → Option PageState) → Prop) (st : Nat → Option PageState) : Prop :=
  ∃ st₀ x y, pages st₀ ∧ st₀ page = some x ∧ rel x y ∧ st = Function.update st₀ page (some y)

variable {full : Bool} {t d e p : Nat} {f g : Nat → UInt8} {bad : Option Nat}
  {known pages : (Nat → Option PageState) → Prop} {s : Kernel}

theorem Building.mono {known' pages' : (Nat → Option PageState) → Prop}
    (h : Building t d e p f bad g known pages s) (imp : ∀ st, known st → known' st)
    (imp' : ∀ st, pages st → pages' st) : Building t d e p f bad g known' pages' s :=
  ⟨h.here, h.alone, h.shows, fun hs => imp _ (h.known hs), imp' _ h.pages⟩

/-- Only a user page is mapped to the zero frame. -/
theorem userPage_of_zero {m : Mem} (inv : m.Inv) {v : Nat} (h : m.Zero d (pageOf v)) :
    UserPage (pageOf v) := by
  obtain ⟨pte, mapped, zero⟩ := h
  obtain ⟨space, hd, state⟩ := Option.map_eq_some_iff.mp mapped
  refine ⟨Nat.not_lt.mp fun low => ?_, pageOf_lt v⟩
  have eq := inv.wf.kernel d space _ hd low
  rw [state, PageState.mapped.injEq] at eq
  rw [eq] at zero
  simp only [kernelPte, kernelPageCount, zeroFrame, userPageStart, userMemStart, pageSize] at *
  omega

/-- A change of the directory under construction. -/
theorem step_build (inv : s.Inv full) (h : Building t d e p f bad g known pages s) {mem : Mem}
    (confined : Confined e s.mem mem) {bad' : Option Nat} {g' : Nat → UInt8}
    {pages' : (Nat → Option PageState) → Prop}
    (shows : s.shared p = false → Shows bad' e g' mem) (now : pages' (mem.state e)) :
    Kernel.Inv full { s with mem := mem } ∧ (sys full).Guarantees t s { s with mem := mem } ∧
      Building t d e p f bad' g' known pages' { s with mem := mem } := by
  have ne := h.here.held_ne
  obtain ⟨inv', guar⟩ := step_mem inv h.here.thread (.inl (h.here.holds e rfl).1) confined
    s.trace (fun _ _ => rfl) inv.agree
  refine ⟨inv', guar, h.here.of_bytes fun _ w user => confined.bytes d w ne user, h.alone, shows,
    fun hs => ?_, now⟩
  change known (mem.state d)
  rw [state_congr (confined.space d ne)]
  exact h.known hs

theorem step_build_unchanged (inv : s.Inv full) (h : Building t d e p f bad g known pages s)
    {mem : Mem} (same : Unchanged s.mem mem) :
    Kernel.Inv full { s with mem := mem } ∧ (sys full).Guarantees t s { s with mem := mem } ∧
      Building t d e p f bad g known pages { s with mem := mem } := by
  refine step_build inv h (same.confined inv.mem e) (fun hs w user => ?_) ?_
  · rw [same.byteAt e w]
    exact h.shows hs w user
  · have : mem.state e = s.mem.state e := funext fun page => same.state e page
    rw [this]
    exact h.pages

/-- The states after one page was set. -/
theorem PageSet.put {m m' : Mem} {page : Nat} {state x : PageState} (set : PageSet e page state m m')
    (before : m.state e page = some x) (now : pages (m.state e))
    (rel : PageState → PageState → Prop) (h : rel x state) : PutPage page rel pages (m'.state e) := by
  refine ⟨m.state e, x, state, now, before, h, ?_⟩
  funext q
  by_cases same : q = page
  · rw [same, set.now, Function.update_self]
  · rw [set.rest q same, Function.update_of_ne same]

theorem triple_malloc_build (size : Nat) :
    (sys full).Triple t (Building t d e p f bad g known pages) (act (.malloc size))
      fun _ => Building t d e p f bad g known pages := by
  refine Sys.Triple.perform Building.stable ?_
  rintro s inv - - h
  by_cases large : userMemStart ≤ size
  · exact ⟨s, false, if_pos large, inv, guarantees_refl s, fun _ => h⟩
  · have same : Unchanged s.mem (s.mem.withVm s.mem.vm.malloc.2) := ⟨rfl, rfl⟩
    obtain ⟨inv', guar, h'⟩ := step_build_unchanged inv h same
    exact ⟨_, _, if_neg large, inv', guar, fun _ => h'⟩

/-! ### Pages -/

/-- A page that was put into another state and shows the same bytes. -/
theorem shows_of_same {m m' : Mem} {page : Nat} (shows : Shows none e g m)
    (here : ∀ w, UserAddr w → pageOf w = page → m'.byteAt e w = m.byteAt e w)
    (rest : SameBut e page m m') : Shows none e g m' := by
  intro w user
  have old := shows w user
  simp only [reduceCtorEq, ↓reduceIte] at old ⊢
  by_cases same : pageOf w = page
  · rw [here w user same, old]
  · rw [rest w user same, old]

theorem triple_setAvailability_build (v availability : Nat) :
    (sys full).Triple t (Building t d e p f none g known pages)
      (act (.setAvailability e v availability)) fun ok s => bif ok then
        Building t d e p f none g known 
          (PutPage (pageOf v) (SetAvailable availability) pages) s
      else Building t d e p f none g known pages s := by
  refine Sys.Triple.perform Building.stable ?_
  rintro s inv - - h
  have silent : ∀ mem, (Kernel.noteAvailable { s with mem := mem } t e v) = { s with mem := mem } := by
    intro mem
    obtain ⟨pr, hp, hd⟩ := Option.map_eq_some_iff.mp h.here.dir
    have ne : pr.dir ≠ e := hd ▸ h.here.held_ne
    simp [Kernel.noteAvailable, Kernel.proc, h.here.thread, hp, ne]
  rcases setAvailability_mem inv.mem e v availability with ⟨fails, same⟩ |
    ⟨old, avail, ok, bits, unmapped, set⟩
  · obtain ⟨inv', guar, h'⟩ := step_build_unchanged inv h same
    refine ⟨_, false, ?_, inv', guar, fun _ => h'⟩
    simp [sys, Kernel.exec, Kernel.setVm, fails]
  · obtain ⟨inv', guar, h'⟩ := step_build inv h set.confined
      (fun hs => shows_of_same (h.shows hs) (fun w _ page => by
        rw [byteAt_unmapped (page ▸ set.now), byteAt_unmapped (page ▸ unmapped)]) set.bytes)
      (set.put unmapped h.pages (SetAvailable availability) ⟨⟨old, rfl⟩, avail, bits, rfl⟩)
    refine ⟨_, true, ?_, inv', guar, fun _ => h'⟩
    simp [sys, Kernel.exec, Kernel.setVm, ok, silent]

theorem triple_mapZeroFrame_build (v : Nat) :
    (sys full).Triple t (Building t d e p f none g known pages) (act (.mapZeroFrame e v))
      fun ok s => bif ok then
        Building t d e p f none g known
          (PutPage (pageOf v) MapZero pages) s
      else Building t d e p f none g known pages s := by
  refine Sys.Triple.perform Building.stable ?_
  rintro s inv - - h
  rcases mapZeroFrame_mem inv.mem e v with ⟨fails, same⟩ | ⟨avail, pte, ok, unmapped, zero, set⟩
  · obtain ⟨inv', guar, h'⟩ := step_build_unchanged inv h same
    exact ⟨_, false, Prod.ext rfl fails, inv', guar, fun _ => h'⟩
  · obtain ⟨inv', guar, h'⟩ := step_build inv h set.confined
      (fun hs => shows_of_same (h.shows hs) (fun w _ page => by
        rw [byteAt_zero set.confined.inv (page ▸ set.now) zero, byteAt_unmapped (page ▸ unmapped)])
        set.bytes)
      (set.put unmapped h.pages MapZero ⟨⟨avail, rfl⟩, pte, rfl, zero⟩)
    exact ⟨_, true, Prod.ext rfl ok, inv', guar, fun _ => h'⟩

theorem triple_mapNewFrame_build (v : Nat) :
    (sys full).Triple t (Building t d e p f none g known pages) (act (.mapNewFrame e v))
      fun ok s => bif ok then UserPage (pageOf v) ∧
        Building t d e p f (some (pageOf v)) g known
          (PutPage (pageOf v) MapOwn pages) s
      else Building t d e p f none g known pages s := by
  refine Sys.Triple.perform Building.stable ?_
  rintro s inv - - h
  rcases mapNewFrame_mem inv.mem e v with ⟨fails, same⟩ | ⟨avail, pte, ok, unmapped, nz, set⟩
  · obtain ⟨inv', guar, h'⟩ := step_build_unchanged inv h same
    exact ⟨_, false, Prod.ext rfl fails, inv', guar, fun _ => h'⟩
  · have shows : s.shared p = false → Shows (some (pageOf v)) e g
        (s.mem.withVm (mapNewFrame s.mem.vm e v).2) := by
      intro hs w user
      have old := h.shows hs w user
      simp only [reduceCtorEq, ↓reduceIte] at old
      by_cases page : pageOf w = pageOf v
      · rw [if_pos (congrArg some page), old]
        exact byteAt_unmapped (page ▸ unmapped)
      · rw [if_neg (by simpa using page), old]
        exact (set.bytes w user page).symm
    obtain ⟨inv', guar, h'⟩ := step_build inv h set.confined shows
      (set.put unmapped h.pages MapOwn ⟨⟨avail, rfl⟩, pte, rfl, nz⟩)
    exact ⟨_, true, Prod.ext rfl ok, inv', guar, fun _ => ⟨set.user, h'⟩⟩

theorem triple_clearPage_build {v : Nat} (user : UserPage (pageOf v)) :
    (sys full).Triple t (Building t d e p f (some (pageOf v)) g known pages)
      (act (.clearPage e v)) fun _ => Building t d e p f none g known pages := by
  refine Sys.Triple.perform Building.stable ?_
  rintro s inv - - h
  obtain ⟨confined, vm, bytes⟩ := clearPage_mem inv.mem e v user
  have same : (s.mem.clearPage e v).state e = s.mem.state e := state_congr (by rw [vm])
  have shows : s.shared p = false → Shows none e g (s.mem.clearPage e v) := by
    intro hs w huser
    simp only [reduceCtorEq, ↓reduceIte]
    rw [bytes w huser, h.shows hs w huser]
    simp
  obtain ⟨inv', guar, h'⟩ := step_build inv h confined shows (same ▸ h.pages)
  exact ⟨_, (), rfl, inv', guar, fun _ => h'⟩

theorem triple_mapAndClearNew_build (v : Nat) :
    (sys full).Triple t (Building t d e p f none g known pages) (mapAndClearNew e v)
      fun ok s => bif ok then
        Building t d e p f none g known
          (PutPage (pageOf v) MapOwn pages) s
      else Building t d e p f none g known pages s := by
  refine Sys.Triple.bind (triple_mapNewFrame_build v) fun ok => ?_
  cases ok with
  | false => exact Sys.Triple.ret fun s _ h => h
  | true =>
      refine Sys.Triple.bind ?_ fun _ => Sys.Triple.ret fun s _ h => h
      intro s inv live pre
      exact triple_clearPage_build pre.1 s inv live pre.2

theorem triple_setAccess_build (v access : Nat)
    (safe : access = 0 ∨ (UserPage (pageOf v) →
      ∀ st x, pages st → st (pageOf v) = some x → ¬ OnZero x)) :
    (sys full).Triple t (Building t d e p f none g known pages) (act (.setAccess e v access))
      fun ok s => bif ok then
        Building t d e p f none g known (PutPage (pageOf v) SetReadWrite pages) s
      else Building t d e p f none g known pages s := by
  refine Sys.Triple.perform Building.stable ?_
  rintro s inv - - h
  have safe' : access = 0 ∨ ¬ s.mem.Zero e (pageOf v) := by
    rcases safe with safe | safe
    · exact .inl safe
    · refine .inr ?_
      rintro ⟨pte, mapped, zero⟩
      exact safe (userPage_of_zero inv.mem ⟨pte, mapped, zero⟩) _ _ h.pages mapped ⟨pte, rfl, zero⟩
  rcases setAccess_mem inv.mem e v access safe' with ⟨fails, same⟩ | ⟨pte, rw, ok, mapped, set⟩
  · obtain ⟨inv', guar, h'⟩ := step_build_unchanged inv h same
    exact ⟨_, false, Prod.ext rfl fails, inv', guar, fun _ => h'⟩
  · obtain ⟨inv', guar, h'⟩ := step_build inv h set.confined
      (fun hs => shows_of_same (h.shows hs) (fun w _ page => by
        rw [byteAt_of_state (page ▸ set.now), byteAt_of_state (page ▸ mapped)]
        rfl) set.bytes)
      (set.put mapped h.pages SetReadWrite ⟨pte, rw, rfl, rfl⟩)
    exact ⟨_, true, Prod.ext rfl ok, inv', guar, fun _ => h'⟩

/-! ### Bytes -/

/-- A store of the loader through a page that is not mapped to the zero frame. -/
theorem triple_place (v : Nat) (b : UInt8)
    (safe : UserPage (pageOf v) → ∀ st x, pages st → st (pageOf v) = some x → ¬ OnZero x) :
    (sys full).Triple t (Building t d e p f none g known pages) (act (.place e v b))
      fun ok s => bif ok then
        Building t d e p f none (Function.update g (v % virtualAddrEnd) b) known pages s
      else Building t d e p f none g known
        (fun st => pages st ∧ ∀ pte, st (pageOf v) ≠ some (.mapped pte)) s := by
  refine Sys.Triple.perform Building.stable ?_
  rintro s inv - - h
  have page : pageOf (v % virtualAddrEnd) = pageOf v := by simp [pageOf]
  have clean : s.mem.Zero e (pageOf (v % virtualAddrEnd)) → b = 0 := by
    rintro ⟨pte, mapped, zero⟩
    have user : UserPage (pageOf v) := userPage_of_zero inv.mem ⟨pte, page ▸ mapped, zero⟩
    exact absurd ⟨pte, rfl, zero⟩ (safe user _ _ h.pages (page ▸ mapped))
  cases stored : s.mem.kstore e (v % virtualAddrEnd) b with
  | none =>
      refine ⟨s, false, ?_, inv, guarantees_refl s,
        fun _ => ⟨h.here, h.alone, h.shows, h.known, h.pages, fun pte mapped => ?_⟩⟩
      · simp [sys, Kernel.exec, Kernel.kstore, stored]
      · exact absurd (kstore_mapped (page.symm ▸ mapped) b) (by simp [stored])
  | some mem =>
      obtain ⟨confined, vm, bytes⟩ := kstore_mem inv.mem e _ (mod_lt v) clean stored
      have same : mem.state e = s.mem.state e := state_congr (by rw [vm])
      have shows : s.shared p = false →
          Shows none e (Function.update g (v % virtualAddrEnd) b) mem := by
        intro hs w user
        have old := h.shows hs w user
        simp only [reduceCtorEq, ↓reduceIte] at old ⊢
        rw [bytes w user]
        by_cases eq : w = v % virtualAddrEnd
        · rw [if_pos eq, eq, Function.update_self]
        · rw [if_neg eq, Function.update_of_ne eq, old]
      obtain ⟨inv', guar, h'⟩ := step_build inv h confined shows (same ▸ h.pages)
      refine ⟨_, true, ?_, inv', guar, fun _ => h'⟩
      simp [sys, Kernel.exec, Kernel.kstore, stored]

/-- The page of the parent, copied to the page that was just mapped for the child. -/
theorem triple_copyPage {v : Nat} (user : UserPage (pageOf v))
    (mapped : ∀ st, known st → ∃ pte, st (pageOf v) = some (.mapped pte))
    (own : ∀ st, pages st → ∃ x, st (pageOf v) = some x ∧ OnOwn x) :
    (sys full).Triple t (Building t d e p f (some (pageOf v)) g known pages)
      (act (.copyPage d e v)) fun _ =>
        Building t d e p f none (fun w => if pageOf w = pageOf v then f w else g w) known pages := by
  refine Sys.Triple.perform Building.stable ?_
  rintro s inv - - h
  have owned : s.mem.Owned e (pageOf v) := by
    obtain ⟨x, hx, pte, rfl, nz⟩ := own _ h.pages
    exact ⟨pte, hx, nz⟩
  obtain ⟨confined, vm, rest, copied⟩ := copyPage_mem inv.mem v d user owned
  have same : (s.mem.copyPage d e v).state e = s.mem.state e := state_congr (by rw [vm])
  have shows : s.shared p = false →
      Shows none e (fun w => if pageOf w = pageOf v then f w else g w) (s.mem.copyPage d e v) := by
    intro hs w huser
    simp only [reduceCtorEq, ↓reduceIte]
    by_cases page : pageOf w = pageOf v
    · obtain ⟨pte, hm⟩ := mapped _ (h.known hs)
      have parent := h.here.shows hs w huser
      simp only [reduceCtorEq, ↓reduceIte] at parent
      rw [if_pos page, copied hm w huser page, parent]
    · have old := h.shows hs w huser
      rw [if_neg (by simpa using page)] at old
      rw [if_neg page, rest w huser page, old]
  obtain ⟨inv', guar, h'⟩ := step_build inv h confined shows (same ▸ h.pages)
  exact ⟨_, (), rfl, inv', guar, fun _ => h'⟩

end OsKernel.Memory
