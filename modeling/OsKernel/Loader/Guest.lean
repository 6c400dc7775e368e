/-
Where the sections of a guest go.

For a guest `load_executable` copies each section to the address that the executable names,
moved up by `USER_MEM_START`, and checks no bound: only `getbytes` can refuse a section, for
what it asks of the file. A byte that is to go behind the memory of the guest goes there if
something is mapped, as the kernel is, and otherwise the fault ends the thread in the middle
of the call. So the executables that are loaded or refused without harm are those whose
sections fit, and those of which `getbytes` refuses a section before any byte has gone
astray (`guest_confined_iff`).
-/

import OsKernel.Loader.Image

namespace OsKernel.Loader

open OsKernel.Vm OsKernel.Memory OsKernel.Syscall Prog

/-- The address lies in the memory of the guest. -/
def InGuest (w : Nat) : Prop := userMemStart ≤ w ∧ w < guestMemEnd

/-- The section ends inside the memory of the guest. -/
def GuestFits (sec : Section) : Prop := sec.len = 0 ∨ sec.start + sec.len ≤ guestMemSize

/-- `getbytes` fails for the section. -/
def Refused (file : List UInt8) (sec : Section) : Prop :=
  getbytes file sec.off sec.len = none ∨ (userMemStart + sec.start) % virtualAddrEnd = 0

/-- What the file has for the section ends inside the memory of the guest. -/
def Stays (file : List UInt8) (sec : Section) : Prop :=
  contents file sec = [] ∨ sec.start + (contents file sec).length ≤ guestMemSize

/-- Every section fits, or one is refused before any byte has gone astray. -/
def Safe (image : Image) : Prop :=
  (∀ sec ∈ image.sections, GuestFits sec) ∨ ∃ pre sec post,
    image.sections = pre ++ sec :: post ∧ Refused image.file sec ∧
      ∀ before ∈ pre, Stays image.file before

/-- The call writes inside the memory of the guest, and refuses an image that does not fit. -/
structure Confined (m : Machine) (elf : Elf) (name : List UInt8) (args : List (List UInt8)) :
    Prop where
  writes : (loadExecutable (some elf) name args).Meets Machine.exec Machine.live (Places InGuest) m
  rejected : (∃ sec ∈ elf.sections, ¬ GuestFits sec) →
    (m.eval (loadExecutable (some elf) name args)).2 = some false

section
variable {d t : Nat} {z : Nat → UInt8} {plan : Plan} {file : List UInt8} {sec : Section}

theorem GuestFits.stays (h : GuestFits sec) : Stays file sec := by
  rcases h with empty | fits
  · left
    rw [contents, empty, List.take_zero]
  · have length := contents_length_le file sec
    right
    omega

/-- The copy of a section. -/
def copyGuest (d : Nat) (file : List UInt8) (sec : Section) : Program (Option Placed) :=
  copySection d (userMemStart + sec.start) file sec

theorem copyGuest_refused (d : Nat) (refused : Refused file sec) :
    copyGuest d file sec = pure none := by
  unfold copyGuest copySection
  rcases refused with none | null
  · rw [none]
  · split
    · rfl
    · rw [if_pos null]

theorem copyGuest_accepted (d : Nat) (accepted : ¬ Refused file sec) : copyGuest d file sec = (do
    placeBytes d (userMemStart + sec.start) (contents file sec)
    pure (some (placedAt (userMemStart + sec.start) (contents file sec)))) := by
  rw [Refused, not_or] at accepted
  unfold copyGuest copySection
  split
  · rename_i none
    exact absurd none accepted.1
  · rename_i bytes got
    rw [if_neg accepted.2, getbytes_eq got]

/-! ### Bytes inside the guest -/

theorem inRange_guest {w : Nat} (inside : InGuest w) : InRange userMemStart guestMemEnd (pageOf w) :=
  ⟨w, inside.1, inside.2, rfl⟩

theorem guestMemEnd_lt : guestMemEnd < virtualAddrEnd := by decide

theorem Whole.placeable (whole : Whole userMemStart guestMemEnd plan) {w : Nat} (inside : InGuest w) :
    UserPage (pageOf w) ∧ Own (plan.sight (pageOf w)) ∧ InGuest (w % virtualAddrEnd) := by
  have lt : w < virtualAddrEnd := Nat.lt_trans inside.2 guestMemEnd_lt
  rw [Nat.mod_eq_of_lt lt]
  exact ⟨userPage_of_high inside.1 lt, ⟨_, whole.inside _ (inRange_guest inside)⟩, inside⟩

theorem Stays.inside (stays : Stays file sec) {i : Nat} (hi : i < (contents file sec).length) :
    InGuest (userMemStart + sec.start + i) := by
  rcases stays with empty | fits
  · rw [empty] at hi
    cases hi
  · exact ⟨by omega, by unfold guestMemEnd; omega⟩

/-- A section that stays inside. -/
theorem fills_copyGuest (whole : Whole userMemStart guestMemEnd plan) (stays : Stays file sec) :
    Fills d t z InGuest plan (copyGuest d file sec) fun r plan' =>
      Whole userMemStart guestMemEnd plan' ∧ (¬ Refused file sec → ∃ placed, r = some placed) := by
  by_cases refused : Refused file sec
  · rw [copyGuest_refused d refused]
    exact .ret ⟨whole, fun no => absurd refused no⟩
  · rw [copyGuest_accepted d refused]
    refine Fills.bind (fills_placeBytes _ _ fun i hi => whole.placeable (stays.inside hi)) ?_
    rintro _ _ rfl
    exact .ret ⟨⟨whole.inside, whole.outside⟩, fun _ => ⟨_, rfl⟩⟩

/-- Sections that fit. -/
theorem fills_guestSections {secs : List Section} (whole : Whole userMemStart guestMemEnd plan)
    (fits : ∀ sec ∈ secs, GuestFits sec) :
    Fills d t z InGuest plan (loadSections (copyGuest d file) secs) fun _ _ => True := by
  induction secs generalizing plan with
  | nil => exact .ret trivial
  | cons sec secs ih =>
      refine Fills.bind (fills_copyGuest whole (fits sec List.mem_cons_self).stays) fun r plan' h => ?_
      rcases r with - | placed
      · exact .ret trivial
      refine Fills.bind (ih h.1 fun s mem => fits s (List.mem_cons_of_mem _ mem)) fun r _ _ => ?_
      cases r <;> exact .ret trivial

/-- A section is refused after sections that stay inside. -/
theorem fills_refused {pre post : List Section} (whole : Whole userMemStart guestMemEnd plan)
    (refused : Refused file sec) (stays : ∀ before ∈ pre, Stays file before) :
    Fills d t z InGuest plan (loadSections (copyGuest d file) (pre ++ sec :: post)) fun r _ =>
      r = none := by
  induction pre generalizing plan with
  | nil =>
      rw [List.nil_append, loadSections, copyGuest_refused d refused, pure_bind]
      exact .ret rfl
  | cons first pre ih =>
      refine Fills.bind (fills_copyGuest whole (stays first List.mem_cons_self)) fun r plan' h => ?_
      rcases r with - | placed
      · exact .ret rfl
      refine Fills.bind (ih h.1 fun s mem => stays s (List.mem_cons_of_mem _ mem)) ?_
      rintro _ _ rfl
      exact .ret rfl

/-! ### Bytes that go astray -/

/-- A page outside of the guest is closed, if it is a user page at all. -/
theorem Whole.closed (whole : Whole userMemStart guestMemEnd plan) {v : Nat}
    (out : ¬ InGuest (v % virtualAddrEnd)) (user : UserPage (pageOf v)) :
    plan.sight (pageOf v) = .unmapped .unavailable := by
  refine whole.outside _ user fun here => out ?_
  have page : pageOf (v % virtualAddrEnd) = pageOf v := by simp [pageOf]
  exact here.all (by decide) (by decide) (by decide) page (Nat.mod_lt _ (by decide))

/-- There is nothing to repair such a page with. -/
theorem getAvailability_astray {s : Kernel} (fits : Fits d z s.mem plan)
    (whole : Whole userMemStart guestMemEnd plan) {v : Nat} (out : ¬ InGuest (v % virtualAddrEnd)) :
    Vm.getAvailability s.mem.vm d v ≠ some .available := by
  intro answer
  obtain ⟨space, hd, user, here⟩ := getAvailability_eq.mp answer
  have look := fits.sight_of user (state_of_space hd _)
  rw [here, sight_unmapped, whole.closed out user] at look
  cases look

theorem alive_of_proc {s : Kernel} (home : (s.proc t).isSome = true) : Kernel.alive t s = true := by
  obtain ⟨pr, proc⟩ := Option.isSome_iff_exists.mp home
  obtain ⟨p, thread, -⟩ := Option.bind_eq_some_iff.mp proc
  rw [Kernel.alive, thread]
  rfl

theorem vanish_ends {s : Kernel} (home : (s.proc t).isSome = true) :
    (s.eval t (Memory.act (.vanish d))).2 = none := by
  obtain ⟨pr, proc⟩ := Option.isSome_iff_exists.mp home
  obtain ⟨p, thread, -⟩ := Option.bind_eq_some_iff.mp proc
  have dead : Kernel.alive t (Kernel.exec t (.vanish d) s).1 = false := by
    simp [Kernel.exec, thread, proc, Kernel.alive]
  rw [Kernel.eval, eval_perform, dead]
  rfl

/-- A byte that goes astray is stored there, or ends the thread. -/
theorem placeByte_astray {s : Kernel} (fits : Fits d z s.mem plan)
    (whole : Whole userMemStart guestMemEnd plan) (home : (s.proc t).isSome = true) {v : Nat}
    {b : UInt8} (out : ¬ InGuest (v % virtualAddrEnd))
    (meets : (placeByte d v b).Meets (Kernel.exec t) (Kernel.alive t) (Puts InGuest) s) :
    (s.eval t (placeByte d v b)).2 = none := by
  have fails : s.kstore d (v % virtualAddrEnd) b = (s, false) := by
    have inside : (s.kstore d (v % virtualAddrEnd) b).2 = true → InGuest (v % virtualAddrEnd) :=
      meets.1
    cases stored : s.mem.kstore d (v % virtualAddrEnd) b with
    | none => rw [Kernel.kstore, stored]
    | some mem =>
        refine absurd (inside ?_) out
        rw [Kernel.kstore, stored]
  have alive := alive_of_proc home
  have first : s.eval t (Memory.act (.place d v b)) = (s, some false) := by
    rw [Kernel.eval, eval_perform, show Kernel.exec t (.place d v b) s = (s, false) from fails,
      if_pos alive]
  have asked : s.eval t (Memory.act (.getAvailability d v)) =
      (s, some (Vm.getAvailability s.mem.vm d v)) := by
    rw [Kernel.eval, eval_perform]
    exact if_pos alive
  have repair : s.eval t (repairPage d false true v) = (s, some false) := by
    have astray := getAvailability_astray fits whole out
    rw [repairPage, if_pos rfl, Kernel.eval, eval_bind_some asked]
    split
    · rename_i answer
      exact absurd answer astray
    · rfl
  have fault : (s.eval t (handlePageFault d false true v)).2 = none := by
    rw [handlePageFault, Kernel.eval, eval_bind_some repair]
    exact vanish_ends home
  rw [placeByte, Kernel.eval, eval_bind_some first]
  exact congrArg Prod.snd (eval_bind_none (Prod.ext rfl fault) _)

/-- So does a copy of which some byte goes astray. -/
theorem placeBytes_astray {s : Kernel} (fits : Fits d z s.mem plan)
    (whole : Whole userMemStart guestMemEnd plan) (home : (s.proc t).isSome = true)
    {bytes : List UInt8} {v i : Nat} (hi : i < bytes.length)
    (out : ¬ InGuest ((v + i) % virtualAddrEnd))
    (meets : (placeBytes d v bytes).Meets (Kernel.exec t) (Kernel.alive t) (Puts InGuest) s) :
    (s.eval t (placeBytes d v bytes)).2 = none := by
  induction bytes generalizing v i s plan with
  | nil => cases hi
  | cons b bytes ih =>
      rw [placeBytes, meets_bind] at meets
      rw [placeBytes, Kernel.eval]
      by_cases here : InGuest (v % virtualAddrEnd)
      · obtain ⟨user, own, inside⟩ := whole.placeable here
        have page : pageOf (v % virtualAddrEnd) = pageOf v := by simp [pageOf]
        rw [page] at user own
        rw [Nat.mod_mod] at inside
        obtain ⟨s', x, plan', ran, fits', rfl, same, -⟩ :=
          (fills_placeByte user own inside b).run fits (alive_of_proc home)
        obtain ⟨j, rfl⟩ : ∃ j, i = j + 1 := by
          cases i with
          | zero => exact absurd here out
          | succ j => exact ⟨j, rfl⟩
        have rest := meets.2 x (by rw [← Kernel.eval, ran])
        rw [← Kernel.eval, ran] at rest
        rw [eval_bind_some ran]
        refine ih fits' ⟨whole.inside, whole.outside⟩ ?_ (Nat.lt_of_succ_lt_succ hi) ?_ rest
        · rw [Kernel.proc, same.thread, same.procs]
          exact home
        · rwa [Nat.add_assoc, Nat.add_comm 1 j]
      · have ends := placeByte_astray fits whole home here meets.1
        exact congrArg Prod.snd (eval_bind_none (Prod.ext rfl ends) _)

/-- A section that does not stay inside has a byte that goes astray. -/
theorem exists_astray (start : sec.start < virtualAddrEnd) (leaves : ¬ Stays file sec) :
    ∃ i < (contents file sec).length, ¬ InGuest ((userMemStart + sec.start + i) % virtualAddrEnd) := by
  rw [Stays, not_or] at leaves
  obtain ⟨some, long⟩ := leaves
  have pos : 0 < (contents file sec).length := List.length_pos_iff.mpr some
  by_cases first : sec.start < guestMemSize
  · refine ⟨guestMemSize - sec.start, by omega, ?_⟩
    have last : userMemStart + sec.start + (guestMemSize - sec.start) = guestMemEnd := by
      unfold guestMemEnd
      omega
    rw [last, Nat.mod_eq_of_lt guestMemEnd_lt]
    exact fun inside => Nat.lt_irrefl _ inside.2
  · refine ⟨0, pos, fun inside => ?_⟩
    simp only [InGuest, guestMemEnd, guestMemSize, userMemStart, virtualAddrEnd] at *
    omega

/-- Sections none of which is refused in time are all copied, or the call does not return. -/
theorem loadSections_astray {secs : List Section} {s : Kernel} (fits : Fits d z s.mem plan)
    (whole : Whole userMemStart guestMemEnd plan) (home : (s.proc t).isSome = true)
    (start : ∀ sec ∈ secs, sec.start < virtualAddrEnd)
    (late : ∀ pre sec post, secs = pre ++ sec :: post → (∀ before ∈ pre, Stays file before) →
      ¬ Refused file sec)
    (meets : (loadSections (copyGuest d file) secs).Meets (Kernel.exec t) (Kernel.alive t)
      (Puts InGuest) s) :
    (s.eval t (loadSections (copyGuest d file) secs)).2 ≠ some none := by
  induction secs generalizing s plan with
  | nil => exact fun h => by cases h
  | cons sec secs ih =>
      have accepted : ¬ Refused file sec := late [] sec secs rfl fun _ mem => by cases mem
      rw [loadSections, meets_bind] at meets
      rw [loadSections, Kernel.eval]
      by_cases stays : Stays file sec
      · obtain ⟨s', r, plan', ran, fits', ⟨whole', copied⟩, same, -⟩ :=
          (fills_copyGuest whole stays).run fits (alive_of_proc home)
        obtain ⟨placed, rfl⟩ := copied accepted
        have rest := meets.2 _ (by rw [← Kernel.eval, ran])
        rw [← Kernel.eval, ran] at rest
        rw [eval_bind_some ran]
        dsimp only at rest ⊢
        rw [meets_bind] at rest
        have next := ih fits' whole' (by rw [Kernel.proc, same.thread, same.procs]; exact home)
          (fun sec mem => start sec (List.mem_cons_of_mem _ mem))
          (fun pre sec' post eq all => late (sec :: pre) sec' post (by rw [eq]; rfl) fun before mem =>
            (List.mem_cons.mp mem).elim (fun eq => eq ▸ stays) (all before)) rest.1
        rw [eval_bind]
        rw [Kernel.eval] at next
        generalize (loadSections (copyGuest d file) secs).eval _ _ s' = out at next ⊢
        obtain ⟨s'', - | - | placed'⟩ := out
        · exact fun h => by cases h
        · exact absurd rfl next
        · exact fun h => by cases h
      · obtain ⟨i, hi, out⟩ := exists_astray (start sec List.mem_cons_self) stays
        have copy := meets.1
        rw [copyGuest_accepted d accepted, meets_bind] at copy
        have ends := placeBytes_astray fits whole home hi out copy.1
        have none : ((copyGuest d file sec).eval (Kernel.exec t) (Kernel.alive t) s).2 = none := by
          rw [copyGuest_accepted d accepted]
          exact congrArg Prod.snd (eval_bind_none (Prod.ext rfl ends) _)
        rw [eval_bind_none (Prod.ext rfl none)]
        exact fun h => by cases h

end

/-! ### The call -/

section
variable {d t : Nat} {z : Nat → UInt8} {m : Machine} {p : Nat} {pr : Proc} {elf : Elf}
variable {name : List UInt8} {args : List (List UInt8)}

/-- The image of a guest: its memory and its stack, and then its sections. -/
theorem loadImage_guest (d : Nat) (args : List (List UInt8)) (guest : elf.guest = true) :
    loadImage d elf.toImage args = (do
      match ← loadStack d true args with
      | none => pure none
      | some placed =>
          match ← loadSections (copyGuest d elf.file) elf.sections with
          | none => pure none
          | some placed' => pure (some (placed ++ placed'))) := by
  rw [loadImage, guest]
  rfl

theorem fills_safe (guest : elf.guest = true) (short : Short args) (safe : Safe elf.toImage) :
    Fills d t z InGuest blank (loadImage d elf.toImage args) fun r _ =>
      (∃ sec ∈ elf.sections, ¬ GuestFits sec) → r = none := by
  rw [loadImage_guest d args guest]
  refine Fills.bind (fills_loadStack_guest short closed_blank fun w low high => ⟨low, high⟩)
    fun r plan stack => ?_
  rcases r with - | placed
  · exact .ret fun _ => rfl
  have whole := stack placed rfl
  rcases safe with fits | ⟨pre, sec, post, eq, refused, stays⟩
  · refine Fills.bind (fills_guestSections whole fits) fun r _ _ => ?_
    have none : ¬ ∃ sec ∈ elf.sections, ¬ GuestFits sec := by
      rintro ⟨sec, mem, no⟩
      exact no (fits sec mem)
    cases r with
    | none => exact .ret fun _ => rfl
    | some placed' => exact .ret fun some => absurd some none
  · rw [eq]
    refine Fills.bind (fills_refused whole refused stays) ?_
    rintro _ _ rfl
    exact .ret fun _ => rfl

theorem confined_of_safe (caller : Caller m p pr) (guest : elf.guest = true)
    (safe : Safe elf.toImage) : Confined m elf name args := by
  rcases loadExecutable_runs caller elf name args with ⟨fails, -⟩ | ⟨s₁, starts, loads⟩
  · exact ⟨fails.2 _, fun _ => fails.1⟩
  obtain ⟨s₂, r, plan, ran, -, refuses, -, meets⟩ :=
    (fills_safe guest starts.short safe).run starts.fits starts.alive
  refine ⟨(loads.places _).mpr meets, fun large => ?_⟩
  rw [loads.result, ran, refuses large]
  rfl

/-- Where memory does not run out, no other executable is loaded or refused without harm. -/
theorem not_confined (caller : Caller m p pr) (supplied : m.kernel.mem.vm.Supplied guestFrames)
    (words : Words elf.toImage) (guest : elf.guest = true) (short : name.length + 1 < userMemStart)
    (harm : ¬ Safe elf.toImage) : ¬ Confined m elf name [] := by
  intro confined
  rw [Safe, not_or] at harm
  obtain ⟨large, late⟩ := harm
  simp only [not_forall] at large
  obtain ⟨sec, mem, large⟩ := large
  have result := confined.rejected ⟨sec, mem, large⟩
  rcases loadExecutable_runs caller elf name [] with ⟨-, long⟩ | ⟨s₁, starts, loads⟩
  · obtain ⟨size, mem, long⟩ := long _ supplied
    rw [copySizes, if_pos rfl] at mem
    simp only [List.append_nil, List.map_nil, List.mem_singleton] at mem
    omega
  have home : (s₁.proc m.running).isSome = true := by
    rw [Kernel.proc, starts.procs.thread, starts.procs.procs, caller.thread, Option.bind_some,
      caller.proc]
    rfl
  obtain ⟨s₂, r, plan, ran, fits, whole, same, -⟩ :=
    (fills_loadStack_guest starts.short closed_blank fun w low high =>
      (⟨low, high⟩ : InGuest w)).run starts.fits starts.alive
  obtain ⟨-, -, some⟩ := (achieves_loadStack closed_blank 0).eval starts.fits
    (starts.supplied _ (by rw [Nat.zero_add]; exact supplied)) ran
  obtain ⟨placed, rfl⟩ := Option.isSome_iff_exists.mp some
  have meets := (loads.places InGuest).mp confined.writes
  rw [image, loadImage_guest _ _ guest, meets_bind] at meets
  have rest := meets.2 _ (by rw [← Kernel.eval, ran])
  rw [← Kernel.eval, ran] at rest
  dsimp only at rest
  rw [meets_bind] at rest
  have astray := loadSections_astray fits (whole placed rfl)
    (by rw [Kernel.proc, same.thread, same.procs]; exact home) ?_
    (fun pre sec post eq stays refused => late ⟨pre, sec, post, eq, refused, stays⟩) rest.1
  · rw [loads.result, image, loadImage_guest _ _ guest, Kernel.eval, eval_bind_some ran] at result
    dsimp only at result
    rw [eval_bind] at result
    rw [Kernel.eval] at astray
    generalize (loadSections (copyGuest _ elf.file) elf.sections).eval _ _ s₂ = out at astray result
    obtain ⟨s₃, - | - | placed'⟩ := out
    · cases result
    · exact astray rfl
    · cases result
  · exact fun sec mem => words.start sec ((sections_sublist elf.toImage).subset mem)

end

/-- A machine with memory enough for a guest. -/
theorem boot_supplied : ∃ m, Syscall.boot (guestFrames + 1 + userPageStart / pageSize)
    (fun _ => true) (fun _ => 0) emptyCtl = some m ∧ m.kernel.mem.vm.Supplied guestFrames := by
  have heap : ∀ i, (fun _ => true : Nat → Bool) i = true := fun _ => rfl
  obtain ⟨vm, init, supplied⟩ := supplied_boot (k := guestFrames) (by decide) heap
  obtain ⟨d, vm', made, supplied'⟩ := supplied.constructPageDir
  have booted : ∃ s, Memory.boot (guestFrames + 1 + userPageStart / pageSize) (fun _ => true)
      (fun _ => 0) = some s ∧ s.mem.vm = vm' ∧ s.proc 0 = some { dir := d } := by
    rw [Memory.boot, init]
    dsimp only
    rw [made]
    exact ⟨_, rfl, rfl, rfl⟩
  obtain ⟨s, booted, same, proc⟩ := booted
  refine ⟨(({ toCtl := emptyCtl, kernel := s } : Machine).setPageDirectory d).setCr3 d, ?_, ?_⟩
  · rw [Syscall.boot, booted]
    change (s.proc 0).bind _ = _
    rw [proc]
    rfl
  · change s.mem.vm.Supplied guestFrames
    rwa [same]

/-- An executable that `load_executable` treats as a guest is always loaded inside the memory
of the guest, or refused, just where all its sections fit there, or one is refused by
`getbytes` before any byte has gone astray. -/
theorem guest_confined_iff {elf : Elf} (words : Words elf.toImage) (guest : elf.guest = true) :
    (∀ m p pr name args, Caller m p pr → Confined m elf name args) ↔ Safe elf.toImage := by
  refine ⟨fun all => ?_, fun safe m p pr name args caller => confined_of_safe caller guest safe⟩
  by_contra harm
  obtain ⟨m, started, supplied⟩ := boot_supplied
  obtain ⟨pr, caller⟩ := boot_caller (by decide) started
  exact not_confined caller supplied words guest (by decide) harm (all m 0 pr [65] [] caller)

/-- A guest of one byte, and one byte of `.data` that is moved up into the kernel. -/
def strayElf : Elf where
  txt := ⟨0, 0, 1⟩
  rodat := ⟨0, 0, 0⟩
  dat := ⟨virtualAddrEnd - userMemStart + 0x100000, 0, 1⟩
  bssStart := 0
  bssLen := 0
  file := [195]
  entry := 0

theorem words_strayElf : Words strayElf.toImage := by
  refine ⟨fun sec mem => ?_, by decide⟩
  rcases mem_files mem with rfl | rfl | rfl <;> decide

theorem guest_confined_iff_stray :
    (∀ m p pr name args, Caller m p pr → Confined m strayElf name args) ↔ Safe strayElf.toImage :=
  guest_confined_iff words_strayElf rfl

/-- Its byte goes where the kernel is. -/
theorem stray_not_confined : ∃ m, Syscall.boot (guestFrames + 1 + userPageStart / pageSize)
    (fun _ => true) (fun _ => 0) emptyCtl = some m ∧ ¬ Confined m strayElf [65] [] := by
  obtain ⟨m, started, supplied⟩ := boot_supplied
  obtain ⟨pr, caller⟩ := boot_caller (by decide) started
  refine ⟨m, started, not_confined caller supplied words_strayElf rfl (by decide) ?_⟩
  have sections : strayElf.sections = [strayElf.txt, strayElf.dat] := rfl
  rintro (fits | ⟨pre, sec, post, eq, refused, -⟩)
  · rcases fits strayElf.dat (by rw [sections]; simp) with empty | fits
    · exact absurd empty (by decide)
    · exact absurd fits (by decide)
  · have mem : sec ∈ strayElf.sections := by
      rw [eq]
      simp
    rw [sections, List.mem_cons, List.mem_singleton] at mem
    unfold Refused at refused
    rcases mem with rfl | rfl <;> exact absurd refused (by decide)

end OsKernel.Loader
