/-
What `exec` reads from the `argv` of a program.

`load_executable` counts the slots of `argvec` up to a null pointer, but it puts none behind
the array that it makes itself: behind the last slot lies the last string. So a program that
passes its own `argv` on is understood just where that string is empty, in which case the
string and what fills its double word up are the missing pointer. Otherwise the first letters
of the last argument are taken for a pointer to one more, and a program without arguments has
no array at all.
-/

import OsKernel.Loader.Arguments

namespace OsKernel.Loader

open OsKernel.Vm OsKernel.Memory OsKernel.Syscall Prog

/-! ### The reader -/

/-- A load in kernel mode, through `%cr3`. A page that is available is mapped and cleared when
it faults; where it is not, the thread does not come back. -/
def kload (m : Machine) (v : Nat) : Option UInt8 :=
  match m.kernel.mem.frameAt m.cr3 v with
  | some f => some (m.kernel.mem.phys (f + v % pageSize))
  | none =>
      if m.kernel.mem.state m.cr3 (pageOf v) = some (.unmapped .available) then some 0 else none

/-- A double word. -/
def readWord (read : Nat → Option UInt8) (a : Nat) : Option Nat := do
  let b₀ ← read (a % virtualAddrEnd)
  let b₁ ← read ((a + 1) % virtualAddrEnd)
  let b₂ ← read ((a + 2) % virtualAddrEnd)
  let b₃ ← read ((a + 3) % virtualAddrEnd)
  pure (b₀.toNat + b₁.toNat * 2 ^ 8 + b₂.toNat * 2 ^ 16 + b₃.toNat * 2 ^ 24)

/-- `while (argvec[argc] != NULL) argc++`, for some number of rounds. -/
def argCount (read : Nat → Option UInt8) : Nat → Nat → Option Nat
  | 0, _ => none
  | rounds + 1, argvec => do
      if (← readWord read argvec) = 0 then pure 0
      else (· + 1) <$> argCount read rounds (argvec + 4)

/-- `strcpy` out of user memory, for some number of rounds. -/
def readString (read : Nat → Option UInt8) : Nat → Nat → Option (List UInt8)
  | 0, _ => none
  | rounds + 1, a => do
      let b ← read (a % virtualAddrEnd)
      if b = 0 then pure [] else (b :: ·) <$> readString read rounds (a + 1)

/-- The arguments that `load_executable` finds at `argvec`. -/
def readArgs (read : Nat → Option UInt8) (rounds argvec : Nat) : Option (List (List UInt8)) := do
  if argvec = 0 then none
  else
    let argc ← argCount read rounds argvec
    (List.range argc).mapM fun i => do readString read rounds (← readWord read (argvec + 4 * i))

theorem mapM_eq_some {α β : Type} {f : α → Option β} {xs : List α} {ys : List β} :
    xs.mapM f = some ys ↔ List.Forall₂ (fun x y => f x = some y) xs ys := by
  induction xs generalizing ys with
  | nil =>
      rw [List.mapM_nil, List.forall₂_nil_left_iff]
      exact ⟨fun h => (Option.some.inj h).symm, fun h => congrArg some h.symm⟩
  | cons x xs ih =>
      rw [List.mapM_cons, List.forall₂_cons_left_iff]
      constructor
      · intro h
        obtain ⟨y, head, rest⟩ := Option.bind_eq_some_iff.mp h
        obtain ⟨tail, run, result⟩ := Option.bind_eq_some_iff.mp rest
        exact ⟨y, tail, head, ih.mp run, (Option.some.inj result).symm⟩
      · rintro ⟨y, tail, head, run, rfl⟩
        rw [head, ih.mpr run]
        rfl

/-- The memory from some address to the end of the address space. -/
def Reads (read : Nat → Option UInt8) (g : Nat → UInt8) (low : Nat) : Prop :=
  ∀ w, low ≤ w → w < virtualAddrEnd → read w = some (g w)

section
variable {read : Nat → Option UInt8} {g : Nat → UInt8} {low a : Nat}

theorem readWord_eq (reads : Reads read g low) (above : low ≤ a) (fits : a + 4 ≤ virtualAddrEnd) :
    readWord read a = some (wordAt g a) := by
  have here : ∀ i < 4, read ((a + i) % virtualAddrEnd) = some (g (a + i)) := by
    intro i hi
    rw [Nat.mod_eq_of_lt (by omega)]
    exact reads _ (by omega) (by omega)
  have b₀ := here 0 (by decide)
  rw [Nat.add_zero] at b₀
  rw [readWord, b₀, here 1 (by decide), here 2 (by decide), here 3 (by decide)]
  rfl

theorem readString_eq {s : List UInt8} {rounds : Nat} (reads : Reads read g low) (above : low ≤ a)
    (fits : a + s.length < virtualAddrEnd) (holds : Holds g (a, s ++ [0])) (text : 0 ∉ s)
    (enough : s.length < rounds) : readString read rounds a = some s := by
  obtain ⟨rounds, rfl⟩ := Nat.exists_eq_add_of_lt (Nat.lt_of_le_of_lt (Nat.zero_le _) enough)
  rw [Nat.zero_add] at enough ⊢
  induction s generalizing a rounds with
  | nil =>
      have last : g a = 0 := holds 0 (by simp)
      have lt : a < virtualAddrEnd := fits
      rw [readString, Nat.mod_eq_of_lt lt, reads a above lt, last]
      rfl
  | cons b s ih =>
      simp only [List.length_cons] at fits enough
      rw [List.mem_cons, not_or] at text
      have first : g a = b := holds 0 (by simp)
      have rest : Holds g (a + 1, s ++ [0]) := by
        intro i hi
        have next := holds (i + 1) (by simpa using hi)
        rw [Nat.add_assoc, Nat.add_comm 1 i]
        exact next
      obtain ⟨rounds, rfl⟩ : ∃ n, rounds = n + 1 := ⟨rounds - 1, by omega⟩
      rw [readString, Nat.mod_eq_of_lt (by omega), reads a above (by omega), first]
      simp only [Option.bind_eq_bind, Option.bind_some]
      rw [if_neg (Ne.symm text.1), ih (by omega) (by omega) rest text.2 rounds (by omega)]
      rfl

theorem argCount_succ {rounds n : Nat} (slot : readWord read a = some n) :
    argCount read (rounds + 1) a =
      if n = 0 then some 0 else (argCount read rounds (a + 4)).map (· + 1) := by
  rw [argCount, slot]
  rfl

/-- The slots up to the first that is null. -/
theorem argCount_eq {n rounds : Nat} (reads : Reads read g low) (above : low ≤ a)
    (fits : a + 4 * n + 4 ≤ virtualAddrEnd) (slots : ∀ i < n, wordAt g (a + 4 * i) ≠ 0)
    (null : wordAt g (a + 4 * n) = 0) (enough : n < rounds) : argCount read rounds a = some n := by
  obtain ⟨rounds, rfl⟩ : ∃ k, rounds = k + 1 := ⟨rounds - 1, by omega⟩
  induction n generalizing a rounds with
  | zero =>
      rw [Nat.mul_zero, Nat.add_zero] at null
      rw [argCount_succ (readWord_eq reads above (by omega)), if_pos null]
  | succ n ih =>
      obtain ⟨rounds, rfl⟩ : ∃ k, rounds = k + 1 := ⟨rounds - 1, by omega⟩
      have here := slots 0 (by omega)
      rw [Nat.mul_zero, Nat.add_zero] at here
      have shift : ∀ i, a + 4 + 4 * i = a + 4 * (i + 1) := fun i => by omega
      have rest := ih (a := a + 4) (by omega) (by omega)
        (fun i hi => by rw [shift]; exact slots (i + 1) (by omega)) (by rw [shift]; exact null)
        rounds (by omega)
      rw [argCount_succ (readWord_eq reads above (by omega)), if_neg here, rest, Option.map_some]

/-- No slot that is null, no end: the count goes past them all. -/
theorem argCount_past {n rounds argc : Nat} (reads : Reads read g low) (above : low ≤ a)
    (fits : a + 4 * n ≤ virtualAddrEnd) (slots : ∀ i < n, wordAt g (a + 4 * i) ≠ 0)
    (counted : argCount read rounds a = some argc) : n ≤ argc := by
  induction n generalizing a rounds argc with
  | zero => exact Nat.zero_le _
  | succ n ih =>
      cases rounds with
      | zero => cases counted
      | succ rounds =>
          have here := slots 0 (by omega)
          rw [Nat.mul_zero, Nat.add_zero] at here
          have shift : ∀ i, a + 4 + 4 * i = a + 4 * (i + 1) := fun i => by omega
          rw [argCount_succ (readWord_eq reads above (by omega)), if_neg here] at counted
          obtain ⟨rest, next, rfl⟩ := Option.map_eq_some_iff.mp counted
          have past := ih (by omega) (by omega)
            (fun i hi => by rw [shift]; exact slots (i + 1) (by omega)) next
          omega

/-- Slots that name strings, and a null pointer behind them. -/
theorem readArgs_eq {texts : List (List UInt8)} {rounds : Nat} (reads : Reads read g low)
    (nonnull : a ≠ 0) (above : low ≤ a) (fits : a + 4 * texts.length + 4 ≤ virtualAddrEnd)
    (slots : ∀ i < texts.length, wordAt g (a + 4 * i) ≠ 0)
    (null : wordAt g (a + 4 * texts.length) = 0) (enough : texts.length < rounds)
    (strings : ∀ i (h : i < texts.length),
      readString read rounds (wordAt g (a + 4 * i)) = some texts[i]) :
    readArgs read rounds a = some texts := by
  rw [readArgs, if_neg nonnull, argCount_eq reads above fits slots null enough]
  refine mapM_eq_some.mpr (List.forall₂_iff_get.mpr ⟨List.length_range, fun i h h' => ?_⟩)
  simp only [List.get_eq_getElem, List.getElem_range]
  rw [readWord_eq reads (by omega) (by omega)]
  exact strings i h'

theorem readArgs_length {texts : List (List UInt8)} {rounds : Nat}
    (h : readArgs read rounds a = some texts) :
    a ≠ 0 ∧ argCount read rounds a = some texts.length := by
  rw [readArgs] at h
  split at h
  · cases h
  rename_i nonnull
  obtain ⟨argc, counted, h⟩ := Option.bind_eq_some_iff.mp h
  have length := (mapM_eq_some.mp h).length_eq
  rw [List.length_range] at length
  exact ⟨nonnull, length ▸ counted⟩

end

/-! ### The array that `load_executable` makes -/

section
variable {z g : Nat → UInt8} {args : List (List UInt8)} {read : Nat → Option UInt8}

/-- From `argv`, and from every slot of it, the arguments from there on are read. -/
def Rereads (read : Nat → Option UInt8) (args : List (List UInt8)) (argv : Nat) : Prop :=
  ∀ k ≤ args.length, ∃ rounds, readArgs read rounds (argv + 4 * k) = some (args.drop k)

/-- The last string lies right behind the array. -/
theorem last_string {text : List UInt8} (last : args.getLast? = some text) :
    (arrayTop args, text ++ [0]) ∈ layout virtualAddrEnd (strings args) := by
  obtain ⟨init, rfl⟩ := List.getLast?_eq_some_iff.mp last
  rw [arrayTop, strings, List.map_append, List.map_singleton, bottom_append, layout_append]
  exact List.mem_append_right _ (List.mem_singleton_self _)

/-- What lies behind the array is null just where the last string is empty. -/
theorem Shown.behind {text : List UInt8} (h : Shown args z g) (last : args.getLast? = some text)
    (clean : 0 ∉ text) : wordAt g (arrayTop args) = 0 ↔ text = [] := by
  have mem := last_string last
  have holds := h.string mem
  constructor
  · intro null
    cases text with
    | nil => rfl
    | cons b text =>
        have first : g (arrayTop args) = b := holds 0 (by simp)
        rw [List.mem_cons, not_or] at clean
        refine absurd (UInt8.toNat_inj.mp ?_) clean.1
        rw [wordAt, first] at null
        simp only [UInt8.toNat_zero]
        omega
  · rintro rfl
    have here := (strings_order h.pos).1 _ mem
    have aligned := arrayTop_dvd args
    have low : lowest args ≤ arrayTop args := by
      have top := lowest_add h.pos
      have array := wordsTop_add (Nat.lt_trans (by decide) (wordsTop_pos h.pos))
      omega
    have inPushed : (arrayTop args, [(0 : UInt8)]) ∈
        layout virtualAddrEnd (pushed stackLow virtualAddrEnd args) := by
      rw [layout_pushed h.pos, List.append_assoc]
      exact List.mem_append_left _ mem
    -- no other value reaches into the double word
    have gap : ∀ i, 0 < i → i < 4 → g (arrayTop args + i) = 0 := by
      intro i pos lt
      simp only [List.nil_append, List.length_singleton, virtualAddrEnd] at here
      refine h.gaps _ (by omega) (by simp only [virtualAddrEnd]; omega) fun e inside both => ?_
      by_cases same : e = (arrayTop args, [(0 : UInt8)])
      · rw [same, List.length_singleton] at both
        omega
      have apart := layout_apart h.pos inside inPushed same
      have dvd := layout_dvd e inside
      rw [List.length_singleton] at apart
      omega
    have first : g (arrayTop args) = 0 := holds 0 (by simp)
    rw [wordAt, first, gap 1 (by decide) (by decide), gap 2 (by decide) (by decide),
      gap 3 (by decide) (by decide)]
    rfl

/-- A slot of the array names a string of the stack. -/
theorem Shown.slot_bounds (h : Shown args z g) {i : Nat} (hi : i < args.length) :
    arrayTop args ≤ wordAt g (wordsTop args + 4 * i) ∧
      wordAt g (wordsTop args + 4 * i) + args[i].length < virtualAddrEnd := by
  obtain ⟨a, here, mem⟩ := mem_strings hi
  rw [h.slot hi, Option.some.injEq] at here
  have bounds := (strings_order h.pos).1 _ mem
  simp only [List.length_append, List.length_singleton] at bounds
  omega

theorem Shown.rereads_iff (h : Shown args z g) (clean : ∀ arg ∈ args, 0 ∉ arg)
    (reads : Reads read g (lowest args)) :
    Rereads read args (wordAt g (lowest args + 8)) ↔ args.getLast? = some [] := by
  have top := lowest_add h.pos
  have room := wordsTop_pos h.pos
  have array := wordsTop_add (Nat.lt_trans (by decide) room)
  have start : args ≠ [] → wordAt g (lowest args + 8) = wordsTop args := fun nonempty => by
    rw [h.array, argv_eq nonempty]
  have slots : ∀ i < args.length, wordAt g (wordsTop args + 4 * i) ≠ 0 := by
    intro i hi
    have bounds := h.slot_bounds hi
    omega
  -- the string behind the array ends inside the address space
  have ends : ∀ {text}, args.getLast? = some text → arrayTop args + 4 ≤ virtualAddrEnd := by
    intro text last
    have bounds := (strings_order h.pos).1 _ (last_string last)
    have aligned := arrayTop_dvd args
    simp only [List.length_append, List.length_singleton, virtualAddrEnd] at *
    omega
  constructor
  · intro all
    obtain ⟨rounds, taken⟩ := all 0 (Nat.zero_le _)
    rw [List.drop_zero, Nat.mul_zero, Nat.add_zero] at taken
    obtain ⟨nonnull, counted⟩ := readArgs_length taken
    cases last : args.getLast? with
    | none =>
        rw [List.getLast?_eq_none_iff] at last
        subst last
        rw [h.array] at nonnull
        exact absurd rfl nonnull
    | some text =>
        refine congrArg some ((h.behind last (clean text (List.mem_of_getLast? last))).mp ?_)
        by_contra more
        have nonempty : args ≠ [] := by
          rintro rfl
          cases last
        have fits := ends last
        rw [start nonempty] at counted
        have past := argCount_past (n := args.length + 1) reads (by omega) (by omega)
          (fun i hi => ?_) counted
        · omega
        · rcases Nat.lt_or_eq_of_le (Nat.le_of_lt_succ hi) with hi | rfl
          · exact slots i hi
          · rwa [array]
  · intro last k hk
    have fits := ends last
    have nonempty : args ≠ [] := by
      rintro rfl
      cases last
    have length : (args.drop k).length = args.length - k := List.length_drop
    have shift : ∀ i, wordsTop args + 4 * k + 4 * i = wordsTop args + 4 * (k + i) := fun i => by omega
    have null := (h.behind last (by simp)).mpr rfl
    refine ⟨virtualAddrEnd, ?_⟩
    rw [start nonempty]
    refine readArgs_eq reads (by omega) (by omega) (by omega) (fun i hi => ?_) ?_ (by omega)
      fun i hi => ?_
    · rw [shift]
      exact slots _ (by omega)
    · rw [shift, length, Nat.add_sub_cancel' hk, array]
      exact null
    · have inside : k + i < args.length := by omega
      have bounds := h.slot_bounds inside
      rw [shift, List.getElem_drop]
      exact readString_eq reads (by omega) bounds.2 (h.strings inside)
        (clean _ (List.getElem_mem inside)) (by omega)

end

/-! ### The next exec -/

section
variable {m m' m'' : Machine} {p : Nat} {pr : Proc} {elf : Elf} {name : List UInt8}
variable {args : List (List UInt8)}

/-- The kernel can read what a started program has on its stack. -/
theorem started_reads (caller : Caller m p pr) (words : Words elf.toImage)
    (user : elf.guest = false)
    (ran : m.eval (loadExecutable (some elf) name args) = (m', some true)) :
    Reads (kload m') (m'.kernel.mem.byteAt m'.cr3) (lowest args) := by
  obtain ⟨plan, h⟩ := started caller user ran
  obtain ⟨mid, placement⟩ := h.planned.placement words
  intro w low lt
  have high : userMemStart ≤ w :=
    Nat.le_trans (by decide) (Nat.le_trans placement.stacked.room low)
  obtain ⟨pte, here, -, -⟩ := h.fits.own (userPage_of_high high lt) (placement.stack_own low lt)
  have frame : m'.kernel.mem.frameAt m'.cr3 w = some (pte.pageAddr * pageSize) := by
    rw [frameAt_eq, here]
    rfl
  rw [kload, frame, byteAt_of_state here]
  rfl

/-- A program that has its arguments on its stack as they were, and passes its `argv` or a
suffix of it to `exec`, is understood just where its last argument is the empty string. -/
theorem argv_reread_iff (caller : Caller m p pr) (words : Words elf.toImage)
    (user : elf.guest = false) (clean : ∀ arg ∈ args, 0 ∉ arg)
    (ran : m.eval (loadExecutable (some elf) name args) = (m', some true))
    (same : ∀ w, m'.ureg.esp ≤ w → w < virtualAddrEnd → kload m'' w = kload m' w) :
    Rereads (kload m'') args (wordAt (m'.kernel.mem.byteAt m'.cr3) (m'.ureg.esp + 8)) ↔
      args.getLast? = some [] := by
  obtain ⟨esp, -, shown⟩ := started_shown caller words user ran
  have reads := started_reads caller words user ran
  rw [esp] at same ⊢
  exact shown.rereads_iff clean fun w low lt => (same w low lt).trans (reads w low lt)

end

theorem argv_reread_iff_empty : ∃ m m', Syscall.boot 4110 (fun _ => true) (fun _ => 0) emptyCtl =
    some m ∧ m.eval (loadExecutable (some bssElf) [65] [[98], []]) = (m', some true) ∧
      (Rereads (kload m') [[98], []]
        (wordAt (m'.kernel.mem.byteAt m'.cr3) (m'.ureg.esp + 8)) ↔
          ([[98], []] : List (List UInt8)).getLast? = some []) := by
  have ran : (Syscall.boot 4110 (fun _ => true) (fun _ => 0) emptyCtl).map (fun m =>
      (m.eval (loadExecutable (some bssElf) [65] [[98], []])).2) = some (some true) := by
    decide +kernel
  obtain ⟨m, started, loaded⟩ := Option.map_eq_some_iff.mp ran
  obtain ⟨pr, caller⟩ := boot_caller (by decide) started
  exact ⟨m, _, started, Prod.ext rfl loaded, argv_reread_iff caller words_bssElf rfl (by decide)
    (Prod.ext rfl loaded) fun _ _ _ => rfl⟩

/-- A program with one argument, which is not empty, cannot pass it on. -/
theorem argv_not_reread : ∃ m m', Syscall.boot 4110 (fun _ => true) (fun _ => 0) emptyCtl =
    some m ∧ m.eval (loadExecutable (some bssElf) [65] [[97]]) = (m', some true) ∧
      ¬ Rereads (kload m') [[97]]
        (wordAt (m'.kernel.mem.byteAt m'.cr3) (m'.ureg.esp + 8)) := by
  have ran : (Syscall.boot 4110 (fun _ => true) (fun _ => 0) emptyCtl).map (fun m =>
      (m.eval (loadExecutable (some bssElf) [65] [[97]])).2) = some (some true) := by
    decide +kernel
  obtain ⟨m, started, loaded⟩ := Option.map_eq_some_iff.mp ran
  obtain ⟨pr, caller⟩ := boot_caller (by decide) started
  have run : m.eval (loadExecutable (some bssElf) [65] [[97]]) = (_, some true) :=
    Prod.ext rfl loaded
  obtain ⟨esp, -, shown⟩ := started_shown caller words_bssElf rfl run
  refine ⟨m, _, started, run, fun all => ?_⟩
  rw [esp] at all
  have last := (shown.rereads_iff (by decide) (started_reads caller words_bssElf rfl run)).mp all
  cases last

end OsKernel.Loader
