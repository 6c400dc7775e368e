/-
The sections of an executable that is not a guest, in its new directory.

`change_availability` goes first over all the ranges, so that it succeeds only where every
page of every section is a user page that is not mapped yet; `map_and_clear` and `getbytes`
then go section by section, and a page that two sections share is mapped and cleared only
once. The access bits are set in three sweeps, and only then is `.bss` mapped, which skips
the pages that are mapped already. `fills_loadUser` says what is left of all this: the
bytes placed, and for every page the last of these steps that reached it.
-/

import OsKernel.Loader.Plan

namespace OsKernel.Loader

open OsKernel.Vm OsKernel.Memory OsKernel.Syscall Prog

section
variable {d t : Nat} {z : Nat → UInt8} {P : Nat → Prop} {plan : Plan}

/-! ### One section -/

/-- The bytes of the file for a section. -/
def contents (file : List UInt8) (sec : Section) : List UInt8 := (file.drop sec.off).take sec.len

/-- The page is visited by a walk over the section. -/
def Touches (sec : Section) (q : Nat) : Prop := Visits (pagesOf sec.start sec.len) q

theorem getbytes_eq {file bytes : List UInt8} {sec : Section}
    (h : getbytes file sec.off sec.len = some bytes) : bytes = contents file sec := by
  unfold getbytes at h
  split at h
  · cases h
  · cases h
    rfl

theorem contents_length_le (file : List UInt8) (sec : Section) :
    (contents file sec).length ≤ sec.len := by
  simp only [contents, List.length_take]
  exact Nat.min_le_left _ _

theorem fills_copySection {file : List UInt8} {sec : Section} {v : Nat}
    (inside : ∀ i < (contents file sec).length, UserPage (pageOf (v + i)) ∧
      Own (plan.sight (pageOf (v + i))) ∧ P ((v + i) % virtualAddrEnd)) :
    Fills d t z P plan (copySection d v file sec) fun r plan' => ∀ placed, r = some placed →
      placed = placedAt v (contents file sec) ∧ plan' = plan.puts placed := by
  unfold copySection
  split
  · exact .ret fun placed h => by cases h
  rename_i bytes got
  rw [getbytes_eq got]
  split
  · exact .ret fun placed h => by cases h
  refine Fills.bind (fills_placeBytes _ _ inside) ?_
  rintro _ _ rfl
  refine .ret fun placed h => ?_
  cases h
  exact ⟨rfl, rfl⟩

/-- The section is mapped where it is not yet, and copied. -/
theorem fills_loadSection {file : List UInt8} {sec : Section} (every : ∀ w, P w)
    (ready : ∀ q, Touches sec q → UserPage q ∧ Ready (plan.sight q)) :
    Fills d t z P plan (loadSection d file sec) fun r plan' => ∀ placed, r = some placed →
      placed = placedAt sec.start (contents file sec) ∧
        plan' = (plan.walk (mapRule false) (Touches sec)).puts placed := by
  refine Fills.bind (fills_mapAndClear false fun _ w _ _ => every w) fun ok plan' done => ?_
  cases ok with
  | false => exact .ret fun placed h => by cases h
  | true =>
      obtain ⟨-, rfl⟩ := done rfl
      refine fills_copySection fun i hi => ?_
      have visits : Touches sec (pageOf (sec.start + i)) :=
        visits_pagesOf (Nat.lt_of_lt_of_le hi (contents_length_le file sec))
      obtain ⟨user, now⟩ := ready _ visits
      exact ⟨user, ⟨.readWrite, plan.walk_sight visits (mapRule_ready now)⟩, every _⟩

/-! ### Sections one after another -/

/-- Where all the bytes of the sections go. -/
def placedIn (file : List UInt8) (secs : List Section) : Placed :=
  secs.flatMap fun sec => placedAt sec.start (contents file sec)

structure Copied (file : List UInt8) (secs : List Section) (plan plan' : Plan) : Prop where
  byte : plan'.byte = placeOn plan.byte (placedIn file secs)
  inside : ∀ q, (∃ sec ∈ secs, Touches sec q) → plan'.sight q = .otherFrame .readWrite
  outside : ∀ q, (∀ sec ∈ secs, ¬ Touches sec q) → plan'.sight q = plan.sight q

theorem fills_loadSections {file : List UInt8} (secs : List Section) (every : ∀ w, P w)
    (ready : ∀ sec ∈ secs, ∀ q, Touches sec q → UserPage q ∧ Ready (plan.sight q)) :
    Fills d t z P plan (loadSections (loadSection d file) secs) fun r plan' => ∀ placed,
      r = some placed → placed = placedIn file secs ∧ Copied file secs plan plan' := by
  induction secs generalizing plan with
  | nil =>
      refine .ret fun placed h => ?_
      cases h
      refine ⟨rfl, rfl, fun q h => ?_, fun q _ => rfl⟩
      obtain ⟨sec, mem, -⟩ := h
      cases mem
  | cons sec secs ih =>
      have here := ready sec List.mem_cons_self
      refine Fills.bind (fills_loadSection every here) fun r plan₁ first => ?_
      rcases r with - | placed
      · exact .ret fun placed h => by cases h
      obtain ⟨rfl, rfl⟩ := first placed rfl
      let mid := plan.walk (mapRule false) (Touches sec)
      have touched : ∀ q, Touches sec q → mid.sight q = .otherFrame .readWrite := fun q hq =>
        plan.walk_sight hq (mapRule_ready (here q hq).2)
      refine Fills.bind (ih fun sec' mem q hq => ⟨(ready sec' (List.mem_cons_of_mem _ mem) q hq).1, ?_⟩)
        fun r plan₂ rest => ?_
      · by_cases both : Touches sec q
        · exact .inr (touched q both)
        · rw [Plan.puts_sight, plan.walk_sight_off _ both]
          exact (ready sec' (List.mem_cons_of_mem _ mem) q hq).2
      rcases r with - | placed
      · exact .ret fun placed h => by cases h
      obtain ⟨rfl, copied⟩ := rest placed rfl
      refine .ret fun placed h => ?_
      cases h
      refine ⟨rfl, ?_, fun q hq => ?_, fun q hq => ?_⟩
      · rw [copied.byte]
        exact (placeOn_append _ _ _).symm
      · by_cases later : ∃ sec' ∈ secs, Touches sec' q
        · exact copied.inside q later
        obtain ⟨sec', mem, hq⟩ := hq
        rcases List.mem_cons.mp mem with rfl | mem
        · rw [copied.outside q fun sec'' mem'' h => later ⟨sec'', mem'', h⟩]
          exact touched q hq
        · exact absurd ⟨sec', mem, hq⟩ later
      · rw [copied.outside q fun sec' mem => hq sec' (List.mem_cons_of_mem _ mem), Plan.puts_sight]
        exact plan.walk_sight_off _ (hq sec List.mem_cons_self)

/-! ### The whole image -/

/-- The page is visited by a walk over `.bss`. -/
def BssTouches (image : Image) (q : Nat) : Prop := Visits (pagesOf image.bssStart image.bssLen) q

/-- The page belongs to some section. -/
def Covers (image : Image) (q : Nat) : Prop :=
  Touches image.txt q ∨ Touches image.rodat q ∨ Touches image.dat q ∨ BssTouches image q

/-- What `loadUser` has done when it succeeds. -/
structure Loaded (image : Image) (plan plan' : Plan) : Prop where
  fresh : ∀ q, Covers image q → UserPage q ∧ ∃ avail, plan.sight q = .unmapped avail
  byte : plan'.byte = placeOn plan.byte (placedIn image.file image.sections)
  dat : ∀ q, Touches image.dat q → plan'.sight q = .otherFrame .readWrite
  code : ∀ q, ¬ Touches image.dat q → Touches image.txt q ∨ Touches image.rodat q →
    plan'.sight q = .otherFrame .readOnly
  bss : ∀ q, ¬ Touches image.dat q → ¬ Touches image.txt q → ¬ Touches image.rodat q →
    BssTouches image q → plan'.sight q = .zeroFrame .readOnly
  rest : ∀ q, ¬ Covers image q → plan'.sight q = plan.sight q

theorem touches_empty {sec : Section} (empty : sec.len = 0) (q : Nat) : ¬ Touches sec q := by
  rintro ⟨v, mem, -⟩
  rw [pagesOf, if_pos empty] at mem
  cases mem

/-- An empty section has no pages, so that it may be left out. -/
theorem touches_sections {image : Image} {q : Nat} : (∃ sec ∈ image.sections, Touches sec q) ↔
    Touches image.txt q ∨ Touches image.rodat q ∨ Touches image.dat q := by
  have some : ∀ sec, Touches sec q → 0 < sec.len := fun sec h =>
    Nat.pos_of_ne_zero fun empty => touches_empty empty q h
  constructor
  · rintro ⟨sec, mem, h⟩
    rcases List.mem_cons.mp mem with rfl | mem
    · exact .inl h
    · have mem := List.mem_of_mem_filter mem
      simp only [List.mem_cons, List.not_mem_nil, or_false] at mem
      rcases mem with rfl | rfl
      · exact .inr (.inl h)
      · exact .inr (.inr h)
  · rintro (h | h | h)
    · exact ⟨image.txt, List.mem_cons_self, h⟩
    all_goals
      exact ⟨_, List.mem_cons_of_mem _ (List.mem_filter.mpr ⟨by simp, by simpa using some _ h⟩), h⟩

/-- The ranges whose pages are made available before anything is mapped. -/
def ranges (image : Image) : List (Nat × Nat) :=
  [image.txt, image.rodat, image.dat].map (fun s => (s.start, s.len)) ++
    [(image.bssStart, image.bssLen)]

theorem visits_flatMap {β : Type} {f : β → List Nat} {xs : List β} {q : Nat} :
    Visits (xs.flatMap f) q ↔ ∃ x ∈ xs, Visits (f x) q := by
  constructor
  · rintro ⟨v, mem, rfl⟩
    obtain ⟨x, hx, mem⟩ := List.mem_flatMap.mp mem
    exact ⟨x, hx, v, mem, rfl⟩
  · rintro ⟨x, hx, v, mem, rfl⟩
    exact ⟨v, List.mem_flatMap.mpr ⟨x, hx, mem⟩, rfl⟩

theorem visits_ranges {image : Image} {q : Nat} :
    Visits ((ranges image).flatMap fun range => pagesOf range.1 range.2) q ↔ Covers image q := by
  rw [visits_flatMap]
  simp only [ranges, List.map_cons, List.map_nil, List.cons_append, List.nil_append,
    List.mem_cons, List.not_mem_nil, or_false, exists_eq_or_imp, exists_eq_left]
  exact Iff.rfl

/-- All the ranges at once: none of their pages was mapped. -/
theorem fills_ranges (image : Image) :
    Fills d t z P plan (forAll (fun range => changeAvailability d range.1 range.2 1) (ranges image))
      fun ok plan' => ok = true → (∀ q, Covers image q → UserPage q ∧
        ∃ avail, plan.sight q = .unmapped avail) ∧ plan' = plan.walk openRule (Covers image) := by
  change Fills d t z P plan
    (forAll (fun range : Nat × Nat => forAll _ (pagesOf range.1 range.2)) _) _
  rw [forAll_flatMap]
  refine Fills.conseq (fills_opened _) fun ok plan' h go => ?_
  obtain ⟨visited, rfl⟩ := h go
  have pages : Visits ((ranges image).flatMap fun range => pagesOf range.1 range.2) = Covers image :=
    funext fun q => propext visits_ranges
  exact ⟨fun q hq => visited q (visits_ranges.mpr hq), by rw [pages]⟩

/-- The three sweeps of `change_access` and `.bss` over the pages of the sections. -/
theorem loaded_of_copied {image : Image} {plan₀ : Plan}
    (fresh : ∀ q, Covers image q → UserPage q ∧ ∃ avail, plan₀.sight q = .unmapped avail)
    (copied : Copied image.file image.sections (plan₀.walk openRule (Covers image)) plan) :
    Loaded image plan₀ ((((plan.walk (accessRule .readOnly) (Touches image.txt)).walk
      (accessRule .readOnly) (Touches image.rodat)).walk (accessRule .readWrite)
      (Touches image.dat)).walk (mapRule true) (BssTouches image)) := by
  let plan₁ := plan.walk (accessRule .readOnly) (Touches image.txt)
  let plan₂ := plan₁.walk (accessRule .readOnly) (Touches image.rodat)
  let plan₃ := plan₂.walk (accessRule .readWrite) (Touches image.dat)
  -- a page of its own is not changed when `.bss` is mapped
  have last : ∀ q bit, plan₃.sight q = .otherFrame bit →
      (plan₃.walk (mapRule true) (BssTouches image)).sight q = .otherFrame bit := by
    intro q bit look
    by_cases b : BssTouches image q
    · exact plan₃.walk_sight b (by rw [look]; rfl)
    · exact (plan₃.walk_sight_off _ b).trans look
  have own : ∀ q, (∃ sec ∈ image.sections, Touches sec q) → ∃ bit, plan₂.sight q = .otherFrame bit ∧
      (Touches image.txt q ∨ Touches image.rodat q → bit = .readOnly) := by
    intro q hq
    have start := copied.inside q hq
    by_cases r : Touches image.rodat q
    · refine ⟨.readOnly, plan₁.walk_sight r ?_, fun _ => rfl⟩
      by_cases x : Touches image.txt q
      · rw [plan.walk_sight x (by rw [start]; rfl)]
        rfl
      · rw [plan.walk_sight_off _ x, start]
        rfl
    by_cases x : Touches image.txt q
    · exact ⟨.readOnly, (plan₁.walk_sight_off _ r).trans (plan.walk_sight x (by rw [start]; rfl)),
        fun _ => rfl⟩
    · exact ⟨.readWrite, (plan₁.walk_sight_off _ r).trans ((plan.walk_sight_off _ x).trans start),
        fun h => absurd h (not_or.mpr ⟨x, r⟩)⟩
  have off : ∀ q, ¬ Touches image.dat q → ¬ Touches image.txt q → ¬ Touches image.rodat q →
      plan₃.sight q = (plan₀.walk openRule (Covers image)).sight q := by
    intro q noDat noTxt noRodat
    rw [plan₂.walk_sight_off _ noDat, plan₁.walk_sight_off _ noRodat, plan.walk_sight_off _ noTxt]
    refine copied.outside q fun sec mem h => ?_
    rcases touches_sections.mp ⟨sec, mem, h⟩ with h | h | h
    · exact noTxt h
    · exact noRodat h
    · exact noDat h
  refine ⟨fresh, copied.byte, fun q hq => last q _ ?_, fun q noDat hq => last q _ ?_,
    fun q noDat noTxt noRodat hq => plan₃.walk_sight hq ?_, fun q none => ?_⟩
  · obtain ⟨bit, look, -⟩ := own q (touches_sections.mpr (.inr (.inr hq)))
    exact plan₂.walk_sight hq (by rw [look]; rfl)
  · obtain ⟨bit, look, code⟩ := own q (touches_sections.mpr (hq.imp_right .inl))
    rw [plan₂.walk_sight_off _ noDat, look, code hq]
  · have covers : Covers image q := .inr (.inr (.inr hq))
    obtain ⟨-, avail, look⟩ := fresh q covers
    rw [off q noDat noTxt noRodat, plan₀.walk_sight covers (s := .unmapped .available) (by rw [look]; rfl)]
    rfl
  · simp only [Covers, not_or] at none
    obtain ⟨noTxt, noRodat, noDat, noBss⟩ := none
    rw [plan₃.walk_sight_off _ noBss, off q noDat noTxt noRodat, plan₀.walk_sight_off]
    simp only [Covers, not_or]
    exact ⟨noTxt, noRodat, noDat, noBss⟩

theorem fills_loadUser (image : Image) (every : ∀ w, P w) :
    Fills d t z P plan (loadUser d image) fun r plan' => ∀ placed, r = some placed →
      placed = placedIn image.file image.sections ∧ Loaded image plan plan' := by
  refine Fills.bind (fills_ranges image) fun ok plan₁ opened => ?_
  cases ok with
  | false => exact .ret fun placed h => by cases h
  | true =>
  obtain ⟨fresh, rfl⟩ := opened rfl
  have ready : ∀ sec ∈ image.sections, ∀ q, Touches sec q →
      UserPage q ∧ Ready ((plan.walk openRule (Covers image)).sight q) := by
    intro sec mem q hq
    have covers : Covers image q := by
      rcases touches_sections.mp ⟨sec, mem, hq⟩ with h | h | h
      · exact .inl h
      · exact .inr (.inl h)
      · exact .inr (.inr (.inl h))
    obtain ⟨user, avail, look⟩ := fresh q covers
    exact ⟨user, .inl (plan.walk_sight covers (by rw [look]; rfl))⟩
  refine Fills.bind (fills_loadSections image.sections every ready) fun r plan₂ h => ?_
  rcases r with - | placed
  · exact .ret fun placed h => by cases h
  obtain ⟨rfl, copied⟩ := h placed rfl
  refine Fills.bind (fills_changeAccess image.txt.start image.txt.len .readOnly) fun ok plan₃ h => ?_
  cases ok with
  | false => exact .ret fun placed h => by cases h
  | true =>
  obtain rfl := h rfl
  refine Fills.bind (fills_changeAccess image.rodat.start image.rodat.len .readOnly)
    fun ok plan₃ h => ?_
  cases ok with
  | false => exact .ret fun placed h => by cases h
  | true =>
  obtain rfl := h rfl
  refine Fills.bind (fills_changeAccess image.dat.start image.dat.len .readWrite)
    fun ok plan₃ h => ?_
  cases ok with
  | false => exact .ret fun placed h => by cases h
  | true =>
  obtain rfl := h rfl
  refine Fills.bind (fills_mapAndClear true fun h => by cases h) fun ok plan₃ h => ?_
  cases ok with
  | false => exact .ret fun placed h => by cases h
  | true =>
  obtain ⟨-, rfl⟩ := h rfl
  refine .ret fun placed h => ?_
  cases h
  exact ⟨rfl, loaded_of_copied fresh copied⟩

end

end OsKernel.Loader
