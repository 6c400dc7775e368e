/-
What a program finds in memory that `load_executable` has started.

A page that only `.bss` touches is left to the zero frame, and the kernel itself can have
dirtied that: it stores into the buffers of `readline` and `readfile` through pages that
are mapped to it. So `.bss`, and the rest of its pages, read as zeros exactly where no page
was left to the zero frame, or the zero frame was clean (`sections_loaded_iff`). All else
about the sections holds of every image: the ranges that are accepted lie in user space
below the stack, and the bytes are those of the file also where sections share a page.
-/

import OsKernel.Loader.Run

namespace OsKernel.Loader

open OsKernel.Vm OsKernel.Memory OsKernel.Syscall Prog

section
variable {d t : Nat} {z : Nat → UInt8} {P : Nat → Prop} {plan : Plan} {m m' : Machine}
variable {p : Nat} {pr : Proc}

/-! ### A program that was started -/

/-- What the loader has planned for a program that is not a guest. -/
structure Planned (image : Image) (args : List (List UInt8)) (plan : Plan) : Prop where
  short : Short args
  stages : ∃ mid, Stacked stackLow virtualAddrEnd (pushed stackLow virtualAddrEnd args) blank mid ∧
    Loaded image mid plan

theorem fills_loadImage {image : Image} {args : List (List UInt8)} (user : image.guest = false)
    (short : Short args) (every : ∀ w, P w) :
    Fills d t z P blank (loadImage d image args) fun r plan => ∀ placed, r = some placed →
      Planned image args plan := by
  unfold loadImage
  rw [user]
  refine Fills.bind (fills_loadStack short closed_blank fun w _ _ => every w) fun r mid stack => ?_
  rcases r with - | placed
  · exact .ret fun placed h => by cases h
  have stacked := stack placed rfl
  refine Fills.bind (fills_loadUser image every) fun r plan sections => ?_
  rcases r with - | placed'
  · exact .ret fun placed h => by cases h
  exact .ret fun _ _ => ⟨short, mid, stacked, (sections placed' rfl).2⟩

/-- The directory of another process is given up. -/
theorem Fits.destruct {m : Mem} (h : Fits d z m plan) {e : Nat} (ne : d ≠ e) :
    Fits d z (m.withVm (destructPageDir m.vm e)) plan := by
  have dirs : (destructPageDir m.vm e).dirs d = m.vm.dirs d := by
    rw [destructPageDir_dirs, Function.update_of_ne ne]
  have state : (m.withVm (destructPageDir m.vm e)).state d = m.state d := by
    funext q
    simp only [Mem.state, VmState.abs, Mem.withVm, dirs]
  refine ⟨h.wf.destruct e, h.zero, fun q user => by rw [state]; exact h.pages q user,
    fun w addr => ?_, h.spare⟩
  obtain ⟨x, here, -⟩ := h.state addr.page
  rw [← h.bytes w addr, byteAt_of_state ((congrFun state _).trans here), byteAt_of_state here]
  rfl

/-- A program that is no guest, started by a call that has returned 0. -/
structure Started (m : Machine) (p : Nat) (elf : Elf) (args : List (List UInt8)) (m' : Machine)
    (plan : Plan) : Prop where
  planned : Planned elf.toImage args plan
  fits : Fits m'.cr3 (zeros m) m'.kernel.mem plan
  ureg : m'.ureg = elf.ureg args
  proc : m'.kernel.proc m'.running = some { dir := m'.cr3, guest := false }

theorem started (caller : Caller m p pr) {elf : Elf} {name : List UInt8} {args : List (List UInt8)}
    (user : elf.guest = false)
    (ran : m.eval (loadExecutable (some elf) name args) = (m', some true)) :
    ∃ plan, Started m p elf args m' plan := by
  rcases loadExecutable_runs caller elf name args with ⟨fails, -⟩ | ⟨s₁, starts, loads⟩
  · rw [Fails, ran] at fails
    cases fails.1
  obtain ⟨s₂, r, plan, eval, fits, planned, -, -⟩ :=
    (fills_loadImage (P := fun _ => True) user starts.short fun _ => trivial).run starts.fits starts.alive
  have result := loads.result
  rw [ran, eval] at result
  cases r with
  | none => cases result
  | some placed =>
  have enters := loads.enters placed (by rw [eval])
  rw [ran, eval] at enters
  have ne : m.kernel.mem.vm.nextDir ≠ m.cr3 := by
    intro same
    have dir := caller.dir
    rw [← same, starts.absent] at dir
    cases dir
  refine ⟨plan, planned placed rfl, ?_, enters.ureg, ?_⟩
  · rw [enters.cr3, enters.mem]
    exact fits.destruct ne
  · rw [Kernel.proc, enters.running, enters.thread, caller.thread, Option.bind_some, enters.procs,
      Function.update_self, enters.cr3, user]

/-! ### Ranges -/

/-- The fields of `simple_elf_t` are double words. -/
structure Words (image : Image) : Prop where
  start : ∀ sec ∈ [image.txt, image.rodat, image.dat], sec.start < virtualAddrEnd
  bss : image.bssStart < virtualAddrEnd

/-- The address lies in the range. -/
def InSpan (range : Nat × Nat) (w : Nat) : Prop := range.1 ≤ w ∧ w < range.1 + range.2

theorem Words.range {image : Image} (h : Words image) {range : Nat × Nat}
    (mem : range ∈ ranges image) : range.1 < virtualAddrEnd := by
  rw [ranges, List.mem_append] at mem
  rcases mem with mem | mem
  · obtain ⟨sec, hsec, rfl⟩ := List.mem_map.mp mem
    exact h.start sec hsec
  · rw [List.mem_singleton.mp mem]
    exact h.bss

theorem covers_range {image : Image} {q : Nat} :
    Covers image q ↔ ∃ range ∈ ranges image, Visits (pagesOf range.1 range.2) q := by
  rw [← visits_ranges, visits_flatMap]

/-- A range of which every page is accepted lies in user space, below the stack. -/
theorem accepted_range {low addr size : Nat} (start : addr < virtualAddrEnd)
    (accepted : ∀ q, Visits (pagesOf addr size) q → UserPage q ∧ ¬ InRange low virtualAddrEnd q)
    (some : 0 < size) : userMemStart ≤ addr ∧ addr + size ≤ low := by
  have page : ∀ i < size, UserPage (pageOf (addr + i)) ∧ ¬ InRange low virtualAddrEnd (pageOf (addr + i)) :=
    fun i hi => accepted _ (visits_pagesOf hi)
  have inside : addr + size ≤ virtualAddrEnd := by
    by_contra past
    -- the page after the last is that of address 0
    have first := (page (virtualAddrEnd - addr) (by omega)).1.1
    rw [Nat.add_sub_cancel' (by omega)] at first
    exact absurd first (by decide)
  have low' : userMemStart ≤ addr := by
    have first := (page 0 some).1.1
    simp only [pageOf, kernelPageCount, userPageStart, userMemStart, pageSize, virtualAddrEnd,
      Nat.add_zero] at *
    omega
  refine ⟨low', ?_⟩
  by_contra past
  refine (page (size - 1) (by omega)).2 ⟨addr + (size - 1), by omega, by omega, rfl⟩

/-- Every section that is not empty lies in user space, below the pages of the stack. -/
def Accepted (image : Image) : Prop :=
  ∀ range ∈ ranges image, 0 < range.2 → userMemStart ≤ range.1 ∧ range.1 + range.2 ≤ stackLow

theorem Planned.accepted {image : Image} {args : List (List UInt8)} (h : Planned image args plan)
    (words : Words image) : Accepted image := by
  obtain ⟨mid, stacked, loaded⟩ := h.stages
  intro range mem some
  refine accepted_range (words.range mem) (fun q visits => ?_) some
  obtain ⟨user, avail, look⟩ := loaded.fresh q (covers_range.mpr ⟨range, mem, visits⟩)
  refine ⟨user, fun stack => ?_⟩
  by_cases top : InRange (bottom virtualAddrEnd (pushed stackLow virtualAddrEnd args))
      virtualAddrEnd q
  · rw [stacked.pushed q top] at look
    cases look
  · rw [stacked.zero q stack top] at look
    cases look

theorem Accepted.fits {image : Image} (h : Accepted image) (words : Words image)
    {range : Nat × Nat} (mem : range ∈ ranges image) : range.1 + range.2 ≤ virtualAddrEnd := by
  have start := words.range mem
  have low : stackLow ≤ virtualAddrEnd := by decide
  by_cases some : 0 < range.2
  · exact Nat.le_trans (h range mem some).2 low
  · omega

/-! ### Bytes of sections -/

/-- The range of a section. -/
def span (sec : Section) : Nat × Nat := (sec.start, sec.len)

theorem placedIn_outside {file : List UInt8} {secs : List Section} {w : Nat} (g : Nat → UInt8)
    (fits : ∀ sec ∈ secs, sec.start + sec.len ≤ virtualAddrEnd)
    (outside : ∀ sec ∈ secs, ¬ InSpan (span sec) w) : placeOn g (placedIn file secs) w = g w := by
  induction secs generalizing g with
  | nil => rfl
  | cons sec secs ih =>
      rw [placedIn, List.flatMap_cons, placeOn_append]
      refine (ih _ (fun sec' mem => fits sec' (List.mem_cons_of_mem _ mem))
        fun sec' mem => outside sec' (List.mem_cons_of_mem _ mem)).trans ?_
      have length := contents_length_le file sec
      have room := fits sec List.mem_cons_self
      have off := outside sec List.mem_cons_self
      by_cases low : w < sec.start
      · exact placeOn_placedAt_below _ g (by omega) low
      · have high : sec.start + sec.len ≤ w := by
          simp only [InSpan, span] at off
          omega
        rw [placeOn_placedAt _ g (by omega) (by omega), List.getElem?_eq_none (by omega)]
        rfl

/-- A byte of a section that no other section overlaps is the byte of the file. -/
theorem placedIn_inside {file : List UInt8} {secs : List Section} {sec : Section} {i : Nat}
    (g : Nat → UInt8) (fits : ∀ sec ∈ secs, sec.start + sec.len ≤ virtualAddrEnd)
    (apart : secs.Pairwise fun s s' => ∀ w, ¬ (InSpan (span s) w ∧ InSpan (span s') w))
    (mem : sec ∈ secs) (hi : i < sec.len) (inFile : sec.off + sec.len ≤ file.length) :
    file[sec.off + i]? = some (placeOn g (placedIn file secs) (sec.start + i)) := by
  have here : InSpan (span sec) (sec.start + i) := ⟨by simp [span], by simpa [span] using hi⟩
  induction secs generalizing g with
  | nil => cases mem
  | cons sec' secs ih =>
      rw [placedIn, List.flatMap_cons, placeOn_append]
      have rest := fun s mem => fits s (List.mem_cons_of_mem sec' mem)
      rcases List.mem_cons.mp mem with rfl | later
      · have others : ∀ s ∈ secs, ¬ InSpan (span s) (sec.start + i) :=
          fun s hs both => (List.pairwise_cons.mp apart).1 s hs _ ⟨here, both⟩
        have length := contents_length_le file sec
        have room := fits sec List.mem_cons_self
        have byte : (contents file sec)[i]? = file[sec.off + i]? := by
          rw [contents, List.getElem?_take_of_lt hi, List.getElem?_drop]
        have bound : sec.off + i < file.length := by omega
        have some : file[sec.off + i]? = some file[sec.off + i] := List.getElem?_eq_getElem bound
        have out : placeOn (placeOn g (placedAt sec.start (contents file sec))) (placedIn file secs)
            (sec.start + i) = _ := placedIn_outside _ rest others
        rw [placedIn] at out
        rw [out, placeOn_placedAt _ g (by omega) (by omega), Nat.add_sub_cancel_left, byte, some]
        rfl
      · exact ih _ rest (List.pairwise_cons.mp apart).2 later

/-! ### The sections in memory -/

/-- The sections that are read from the file. -/
def files (image : Image) : List Section := [image.txt, image.rodat, image.dat]

/-- The address ranges of the sections are pairwise disjoint. -/
def Apart (image : Image) : Prop :=
  (ranges image).Pairwise fun r r' => ∀ w, ¬ (InSpan r w ∧ InSpan r' w)

/-- The file ranges of the sections lie inside the file. -/
def InFile (image : Image) : Prop :=
  ∀ sec ∈ files image, 0 < sec.len → sec.off + sec.len ≤ image.file.length

/-- Some byte of the page belongs to the range. -/
def Spans (range : Nat × Nat) (q : Nat) : Prop := ∃ v, InSpan range v ∧ pageOf v = q

/-- What a program finds of its sections. -/
structure SectionBytes (image : Image) (g : Nat → UInt8) : Prop where
  file : ∀ sec ∈ files image, ∀ i < sec.len,
    image.file[sec.off + i]? = some (g (sec.start + i))
  bss : ∀ i < image.bssLen, g (image.bssStart + i) = 0
  rest : ∀ w < virtualAddrEnd, (∃ range ∈ ranges image, Spans range (pageOf w)) →
    (∀ range ∈ ranges image, ¬ InSpan range w) → g w = 0

/-- Every page of `.bss` holds bytes of another section. -/
def NoZeroPage (image : Image) : Prop :=
  ∀ q, Spans (image.bssStart, image.bssLen) q → ∃ sec ∈ files image, Spans (span sec) q

theorem spans_iff {range : Nat × Nat} {q : Nat} :
    Visits (pagesOf range.1 range.2) q ↔ Spans range q := by
  rw [visits_iff]
  simp only [Spans, InSpan, and_assoc]

theorem touches_iff {sec : Section} {q : Nat} : Touches sec q ↔ Spans (span sec) q :=
  (spans_iff : Visits (pagesOf (span sec).1 (span sec).2) q ↔ Spans (span sec) q)

theorem covers_iff {image : Image} {q : Nat} :
    Covers image q ↔ ∃ range ∈ ranges image, Spans range q := by
  rw [covers_range]
  exact exists_congr fun _ => and_congr_right fun _ => spans_iff

theorem span_mem {image : Image} {sec : Section} (mem : sec ∈ files image) :
    span sec ∈ ranges image :=
  List.mem_append_left _ (List.mem_map_of_mem mem)

theorem bss_mem (image : Image) : (image.bssStart, image.bssLen) ∈ ranges image :=
  List.mem_append_right _ (List.mem_singleton_self _)

theorem sections_sublist (image : Image) : image.sections.Sublist (files image) :=
  List.Sublist.cons_cons _ List.filter_sublist

theorem mem_sections {image : Image} {sec : Section} (mem : sec ∈ files image) (some : 0 < sec.len) :
    sec ∈ image.sections := by
  rcases List.mem_cons.mp mem with rfl | mem
  · exact List.mem_cons_self
  · exact List.mem_cons_of_mem _ (List.mem_filter.mpr ⟨mem, decide_eq_true some⟩)

theorem Apart.sections {image : Image} (apart : Apart image) :
    image.sections.Pairwise fun s s' => ∀ w, ¬ (InSpan (span s) w ∧ InSpan (span s') w) := by
  have all := (List.pairwise_append.mp apart).1
  exact (List.pairwise_map.mp all).sublist (sections_sublist image)

theorem mem_files {image : Image} {sec : Section} (mem : sec ∈ files image) :
    sec = image.txt ∨ sec = image.rodat ∨ sec = image.dat := by
  simpa only [files, List.mem_cons, List.not_mem_nil, or_false] using mem

/-- A page that holds bytes of the file has a frame of its own. -/
theorem Loaded.own {image : Image} {mid : Plan} (loaded : Loaded image mid plan) {q : Nat}
    {sec : Section} (mem : sec ∈ files image) (here : Touches sec q) : Own (plan.sight q) := by
  by_cases dat : Touches image.dat q
  · exact ⟨_, loaded.dat q dat⟩
  refine ⟨_, loaded.code q dat ?_⟩
  rcases mem_files mem with rfl | rfl | rfl
  · exact .inl here
  · exact .inr here
  · exact absurd here dat

/-- Any other page of the sections is left to the zero frame. -/
theorem Loaded.zero {image : Image} {mid : Plan} (loaded : Loaded image mid plan) {q : Nat}
    (covers : Covers image q) (none : ∀ sec ∈ files image, ¬ Touches sec q) :
    plan.sight q = .zeroFrame .readOnly := by
  have noTxt := none image.txt (by simp [files])
  have noRodat := none image.rodat (by simp [files])
  have noDat := none image.dat (by simp [files])
  rcases covers with h | h | h | h
  · exact absurd h noTxt
  · exact absurd h noRodat
  · exact absurd h noDat
  · exact loaded.bss q noDat noTxt noRodat h

/-- The plan of an image whose words are double words. -/
structure Placement (image : Image) (args : List (List UInt8)) (mid plan : Plan) : Prop where
  accepted : Accepted image
  fits : ∀ range ∈ ranges image, range.1 + range.2 ≤ virtualAddrEnd
  stacked : Stacked stackLow virtualAddrEnd (pushed stackLow virtualAddrEnd args) blank mid
  loaded : Loaded image mid plan

theorem Planned.placement {image : Image} {args : List (List UInt8)} (h : Planned image args plan)
    (words : Words image) : ∃ mid, Placement image args mid plan := by
  obtain ⟨mid, stacked, loaded⟩ := h.stages
  have accepted := h.accepted words
  exact ⟨mid, accepted, fun _ mem => accepted.fits words mem, stacked, loaded⟩

section
variable {image : Image} {args : List (List UInt8)} {mid : Plan}

/-- The pages of the sections lie below the stack, where nothing was stored before. -/
theorem Placement.fresh (h : Placement image args mid plan) {w : Nat} (lt : w < virtualAddrEnd)
    (covers : Covers image (pageOf w)) : mid.byte w = 0 := by
  obtain ⟨-, avail, look⟩ := h.loaded.fresh _ covers
  refine h.stacked.below w (Nat.lt_of_lt_of_le ?_ h.stacked.room)
  by_contra high
  have stack : InRange stackLow virtualAddrEnd (pageOf w) := ⟨w, Nat.le_of_not_lt high, lt, rfl⟩
  by_cases top : InRange (bottom virtualAddrEnd (pushed stackLow virtualAddrEnd args))
      virtualAddrEnd (pageOf w)
  · rw [h.stacked.pushed _ top] at look
    cases look
  · rw [h.stacked.zero _ stack top] at look
    cases look

theorem shows_own {w : Nat} (own : Own (plan.sight (pageOf w))) : plan.shows z w = plan.byte w := by
  obtain ⟨bit, own⟩ := own
  rw [Plan.shows, own]

theorem Placement.file (h : Placement image args mid plan) (apart : Apart image)
    (inFile : InFile image) {sec : Section} (mem : sec ∈ files image) {i : Nat} (hi : i < sec.len) :
    image.file[sec.off + i]? = some (plan.shows z (sec.start + i)) := by
  have touches : Touches sec (pageOf (sec.start + i)) := visits_pagesOf hi
  have some : 0 < sec.len := Nat.lt_of_le_of_lt (Nat.zero_le i) hi
  rw [shows_own (h.loaded.own mem touches), h.loaded.byte]
  refine placedIn_inside mid.byte (fun s hs => ?_) apart.sections (mem_sections mem some) hi
    (inFile sec mem some)
  exact h.fits _ (span_mem ((sections_sublist image).subset hs))

/-- A byte of a page of the sections that no section of the file fills. -/
theorem Placement.unfilled (h : Placement image args mid plan) {w : Nat} (lt : w < virtualAddrEnd)
    (covers : Covers image (pageOf w)) (outside : ∀ sec ∈ files image, ¬ InSpan (span sec) w) :
    plan.byte w = 0 := by
  rw [h.loaded.byte, placedIn_outside mid.byte (fun s hs => ?_) fun s hs => ?_]
  · exact h.fresh lt covers
  · exact h.fits _ (span_mem ((sections_sublist image).subset hs))
  · exact outside s ((sections_sublist image).subset hs)

theorem Placement.bytes_iff (h : Placement image args mid plan) (apart : Apart image)
    (inFile : InFile image) : SectionBytes image (plan.shows z) ↔
      NoZeroPage image ∨ ∀ off < pageSize, z off = 0 := by
  have bssSpan : ∀ {q}, Spans (image.bssStart, image.bssLen) q → Covers image q :=
    fun spans => covers_iff.mpr ⟨_, bss_mem image, spans⟩
  constructor
  · intro bytes
    by_contra none
    simp only [not_or, NoZeroPage, not_forall, not_exists, not_and] at none
    obtain ⟨⟨q, spans, alone⟩, off, hoff, dirty⟩ := none
    -- the page shows the zero frame, also at this offset
    have covers := bssSpan spans
    have zero := h.loaded.zero covers fun sec mem touches =>
      alone sec mem (touches_iff.mp touches)
    obtain ⟨v, inBss, rfl⟩ := spans
    have fits := h.fits _ (bss_mem image)
    have page : pageOf (v / pageSize * pageSize + off) = pageOf v := by
      simp only [pageOf, pageSize, virtualAddrEnd] at *
      omega
    have lt : v / pageSize * pageSize + off < virtualAddrEnd := by
      have := inBss.2
      simp only [pageSize, virtualAddrEnd] at *
      omega
    have shown : plan.shows z (v / pageSize * pageSize + off) = z off := by
      rw [Plan.shows, page, zero]
      dsimp only
      rw [Nat.mul_add_mod_of_lt hoff]
    apply dirty
    rw [← shown]
    by_cases here : InSpan (image.bssStart, image.bssLen) (v / pageSize * pageSize + off)
    · obtain ⟨low, high⟩ := here
      have := bytes.bss (v / pageSize * pageSize + off - image.bssStart) (by omega)
      rwa [Nat.add_sub_cancel' low] at this
    · refine bytes.rest _ lt ⟨_, bss_mem image, v, inBss, page.symm⟩ fun range mem inside => ?_
      rw [ranges, List.mem_append, List.mem_singleton] at mem
      rcases mem with mem | rfl
      · obtain ⟨sec, hsec, rfl⟩ := List.mem_map.mp mem
        exact alone sec hsec ⟨_, inside, page⟩
      · exact here inside
  · intro cond
    have zeroAt : ∀ w < virtualAddrEnd, Covers image (pageOf w) →
        (∀ sec ∈ files image, ¬ InSpan (span sec) w) → plan.shows z w = 0 := by
      intro w lt covers outside
      by_cases own : ∃ sec ∈ files image, Touches sec (pageOf w)
      · obtain ⟨sec, mem, touches⟩ := own
        rw [shows_own (h.loaded.own mem touches), h.unfilled lt covers outside]
      · have alone : ∀ sec ∈ files image, ¬ Touches sec (pageOf w) :=
          fun sec mem touches => own ⟨sec, mem, touches⟩
        rw [Plan.shows, h.loaded.zero covers alone]
        refine (cond.resolve_left fun full => ?_) _ (off_lt w)
        have none : ∀ sec ∈ files image, ¬ Spans (span sec) (pageOf w) := fun sec mem =>
          mt touches_iff.mpr (alone sec mem)
        obtain ⟨range, mem, spans⟩ := covers_iff.mp covers
        rw [ranges, List.mem_append, List.mem_singleton] at mem
        rcases mem with mem | rfl
        · obtain ⟨sec, hsec, rfl⟩ := List.mem_map.mp mem
          exact none sec hsec spans
        · obtain ⟨sec, hsec, spans⟩ := full _ spans
          exact none sec hsec spans
    refine ⟨fun sec mem i hi => h.file apart inFile mem hi, fun i hi => ?_, fun w lt spans outside => ?_⟩
    · have here : InSpan (image.bssStart, image.bssLen) (image.bssStart + i) := ⟨by simp, by simpa using hi⟩
      have lt : image.bssStart + i < virtualAddrEnd :=
        Nat.lt_of_lt_of_le here.2 (h.fits _ (bss_mem image))
      refine zeroAt _ lt (bssSpan ⟨_, here, rfl⟩) fun sec mem inside => ?_
      exact (List.pairwise_append.mp apart).2.2 (span sec) (List.mem_map_of_mem mem) _
        (List.mem_singleton_self _) _ ⟨inside, here⟩
    · exact zeroAt w lt (covers_iff.mpr spans) fun sec mem => outside _ (span_mem mem)

end

/-- Only the pages of the sections matter. -/
theorem SectionBytes.congr {image : Image} {g g' : Nat → UInt8} (h : SectionBytes image g)
    (fits : ∀ range ∈ ranges image, range.1 + range.2 ≤ virtualAddrEnd)
    (agree : ∀ w < virtualAddrEnd, (∃ range ∈ ranges image, Spans range (pageOf w)) → g w = g' w) :
    SectionBytes image g' := by
  refine ⟨fun sec mem i hi => ?_, fun i hi => ?_, fun w lt spans outside => ?_⟩
  · have inside : InSpan (span sec) (sec.start + i) := ⟨by simp [span], by simpa [span] using hi⟩
    rw [← agree _ (Nat.lt_of_lt_of_le inside.2 (fits _ (span_mem mem)))
      ⟨_, span_mem mem, _, inside, rfl⟩]
    exact h.file sec mem i hi
  · have inside : InSpan (image.bssStart, image.bssLen) (image.bssStart + i) :=
      ⟨by simp, by simpa using hi⟩
    rw [← agree _ (Nat.lt_of_lt_of_le inside.2 (fits _ (bss_mem image)))
      ⟨_, bss_mem image, _, inside, rfl⟩]
    exact h.bss i hi
  · rw [← agree w lt spans]
    exact h.rest w lt spans outside

/-- `load_executable` accepts an image that is not a guest only where every section lies in
user space below the pages of the stack. The program then finds every byte of its sections
as it should just where the zero frame was clean before, or no page was left to it. -/
theorem sections_loaded_iff (caller : Caller m p pr) {elf : Elf} (words : Words elf.toImage)
    {name : List UInt8} {args : List (List UInt8)} (user : elf.guest = false)
    (ran : m.eval (loadExecutable (some elf) name args) = (m', some true)) :
    Accepted elf.toImage ∧ (Apart elf.toImage → InFile elf.toImage →
      (SectionBytes elf.toImage (m'.kernel.mem.byteAt m'.cr3) ↔
        NoZeroPage elf.toImage ∨ ∀ off < pageSize, m.kernel.mem.phys (zeroFrame + off) = 0)) := by
  obtain ⟨plan, h⟩ := started caller user ran
  obtain ⟨mid, placement⟩ := h.planned.placement words
  refine ⟨placement.accepted, fun apart inFile => ?_⟩
  have agree : ∀ w < virtualAddrEnd, (∃ range ∈ ranges elf.toImage, Spans range (pageOf w)) →
      m'.kernel.mem.byteAt m'.cr3 w = plan.shows (zeros m) w := fun w lt spans =>
    h.fits.bytes w ⟨lt, (placement.loaded.fresh _ (covers_iff.mpr spans)).1⟩
  have fits := placement.fits
  exact (Iff.intro (fun bytes => bytes.congr fits agree)
    fun bytes => bytes.congr fits fun w lt spans => (agree w lt spans).symm).trans
      (placement.bytes_iff apart inFile)

/-- A program of one byte with a page of `.bss`. -/
def bssElf : Elf where
  txt := ⟨userMemStart, 0, 1⟩
  rodat := ⟨0, 0, 0⟩
  dat := ⟨0, 0, 0⟩
  bssStart := userMemStart + pageSize
  bssLen := 1
  file := [195]
  entry := userMemStart

theorem words_bssElf : Words bssElf.toImage := by
  refine ⟨fun sec mem => ?_, by decide⟩
  rcases mem_files mem with rfl | rfl | rfl <;> decide

theorem sections_loaded_iff_bss : ∃ m m', Syscall.boot 4110 (fun _ => true) (fun _ => 0) emptyCtl =
    some m ∧ m.eval (loadExecutable (some bssElf) [65] []) = (m', some true) ∧
      Accepted bssElf.toImage ∧ (Apart bssElf.toImage → InFile bssElf.toImage →
        (SectionBytes bssElf.toImage (m'.kernel.mem.byteAt m'.cr3) ↔
          NoZeroPage bssElf.toImage ∨ ∀ off < pageSize, m.kernel.mem.phys (zeroFrame + off) = 0)) := by
  have ran : (Syscall.boot 4110 (fun _ => true) (fun _ => 0) emptyCtl).map (fun m =>
      (m.eval (loadExecutable (some bssElf) [65] [])).2) = some (some true) := by
    decide +kernel
  obtain ⟨m, started, loaded⟩ := Option.map_eq_some_iff.mp ran
  obtain ⟨pr, caller⟩ := boot_caller (by decide) started
  exact ⟨m, _, started, Prod.ext rfl loaded,
    sections_loaded_iff caller words_bssElf rfl (Prod.ext rfl loaded)⟩

/-- The program runs and reads a byte into its `.bss`. -/
def readIntoBss : KProgram Bool := do
  let ok ← loadExecutable (some bssElf) [65] []
  lift (fillBuffer (userMemStart + pageSize) 1 [65])
  pure ok

/-- The program that has read into its `.bss` runs itself again. -/
theorem bss_dirty : ∃ m m₁ m', Syscall.boot 4110 (fun _ => true) (fun _ => 0) emptyCtl = some m ∧
    m.eval readIntoBss = (m₁, some true) ∧
      m₁.eval (loadExecutable (some bssElf) [65] []) = (m', some true) ∧
      m'.kernel.mem.byteAt m'.cr3 (userMemStart + pageSize) = 65 ∧
      m'.kernel.mem.byteAt m'.cr3 stackLow = 65 ∧ stackLow < m'.ureg.esp := by
  have ran : (Syscall.boot 4110 (fun _ => true) (fun _ => 0) emptyCtl).map (fun m =>
      match m.eval (do
        let ok ← readIntoBss
        let ok' ← loadExecutable (some bssElf) [65] []
        pure (ok, ok')) with
      | (m', r) => (r, m'.kernel.mem.byteAt m'.cr3 (userMemStart + pageSize),
          m'.kernel.mem.byteAt m'.cr3 stackLow, decide (stackLow < m'.ureg.esp))) =
        some (some (true, true), 65, 65, true) := by
    decide +kernel
  obtain ⟨m, started, run⟩ := Option.map_eq_some_iff.mp ran
  rw [Machine.eval, eval_bind] at run
  rcases first : Prog.eval Machine.exec Machine.live readIntoBss m with ⟨m₁, - | ok⟩
  · simp [first] at run
  rw [first] at run
  dsimp only at run
  rw [eval_bind] at run
  rcases again : Prog.eval Machine.exec Machine.live (loadExecutable (some bssElf) [65] []) m₁ with
    ⟨m', - | ok'⟩
  · simp [again] at run
  rw [again] at run
  simp only [eval_pure, Prod.mk.injEq, Option.some.injEq] at run
  obtain ⟨⟨rfl, rfl⟩, bss, stack, esp⟩ := run
  exact ⟨m, m₁, m', started, first, again, bss, stack, of_decide_eq_true esp⟩

/-- The second time `.bss` is not zero. -/
theorem bss_not_zero : ∃ m m₁ m', Syscall.boot 4110 (fun _ => true) (fun _ => 0) emptyCtl = some m ∧
    m.eval readIntoBss = (m₁, some true) ∧
      m₁.eval (loadExecutable (some bssElf) [65] []) = (m', some true) ∧
      Apart bssElf.toImage ∧ InFile bssElf.toImage ∧
      ¬ SectionBytes bssElf.toImage (m'.kernel.mem.byteAt m'.cr3) := by
  obtain ⟨m, m₁, m', started, first, again, byte, -, -⟩ := bss_dirty
  refine ⟨m, m₁, m', started, first, again, ?_, fun sec mem some => ?_, fun bytes => ?_⟩
  · rw [Apart, show ranges bssElf.toImage =
      [(userMemStart, 1), (0, 0), (0, 0), (userMemStart + pageSize, 1)] from rfl]
    simp only [List.pairwise_cons, List.mem_cons, List.not_mem_nil, or_false, forall_eq_or_imp,
      forall_eq, InSpan, userMemStart, pageSize, false_imp_iff, implies_true, List.Pairwise.nil,
      and_true]
    refine ⟨⟨?_, ?_, ?_⟩, ⟨?_, ?_⟩, ?_⟩ <;> intro w <;> omega
  · rcases mem_files mem with rfl | rfl | rfl
    · decide
    · cases some
    · cases some
  · have zero := bytes.bss 0 (by decide)
    rw [show bssElf.bssStart + 0 = userMemStart + pageSize from rfl, byte] at zero
    cases zero

end

end OsKernel.Loader
