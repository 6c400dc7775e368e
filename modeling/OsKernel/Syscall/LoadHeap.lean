/-
The kernel heap in `load_executable` (`kern/loader.c`): the copies of the name and of
the arguments.

What decides the course of the call, but for the heap, is given: what each of the
functions called answers at its place. Between the last push of an argument and the
end the source neither allocates nor frees a block, so this part is one answer. The
slots of the argument array are addresses; a string that was pushed leaves the address of
its copy on the user stack. Sizes of blocks play no role and are left out.
-/

import OsKernel.Lib.Heap

namespace OsKernel.Syscall.LoadHeap

open Heap Prog

/-- One call, and what happens in it outside of the heap. -/
structure Call where
  /-- No pointer is null, and the ELF header is accepted. -/
  accepted : Bool
  /-- `construct_page_dir` -/
  pageDir : Bool
  /-- The arguments up to the null pointer. -/
  argc : Nat
  /-- `change_availability`, and for a guest `map_and_clear`: the set-up of the user stack. -/
  stack : Bool
  /-- `push_val` of each string: the new stack pointer, or a failure. -/
  pushString : Nat → Option Addr
  /-- `push_val` of the argument array. -/
  pushArray : Bool
  /-- `success` after the sections are loaded. -/
  success : Bool

abbrev Slots := Nat → Addr

/-- The loop that copies the strings; `todo` are left, from the `i`-th on. -/
def copyStrings (slots : Slots) (i : Nat) : Nat → HeapProg (Option Slots)
  | 0 => pure (some slots)
  | todo + 1 => do
      let p ← malloc
      if p = 0 then do
        freeAll ((List.range i).map slots)
        pure none
      else copyStrings (Function.update slots i p) (i + 1) todo

/-- `arg_array` and its slots; none when the call fails. -/
def copyArgs (argc : Nat) (executableName : Addr) : HeapProg (Option (Addr × Slots)) :=
  if argc > 0 then do
    let argArray ← malloc
    if argArray = 0 then do
      free executableName
      pure none
    else do
      match ← copyStrings (fun _ => 0) 0 argc with
      | none => do
          free argArray
          free executableName
          pure none
      | some slots => pure (some (argArray, slots))
  else pure (some (0, fun _ => 0))

/-- The loop that pushes the strings. -/
def pushStrings (call : Call) (slots : Slots) (i : Nat) : Nat → HeapProg Bool
  | 0 => pure true
  | todo + 1 => match call.pushString i with
    | none => do
        freeAll ((List.range' i (todo + 1)).map slots)
        pure false
    | some esp => do
        free (slots i)
        pushStrings call (Function.update slots i esp) (i + 1) todo

def pushArgs (call : Call) (executableName argArray : Addr) (slots : Slots) : HeapProg Bool :=
  if call.argc > 0 then do
    if ← pushStrings call slots 0 call.argc then
      if call.pushArray then do
        free argArray
        pure true
      else do
        free argArray
        free executableName
        pure false
    else do
      free argArray
      free executableName
      pure false
  else pure true

/-- `load_executable` -/
def loadExecutable (call : Call) : HeapProg Int := do
  if call.accepted = false then pure (-1)
  else if call.pageDir = false then pure (-1)
  else do
    let executableName ← malloc
    if executableName = 0 then pure (-1)
    else do
      match ← copyArgs call.argc executableName with
      | none => pure (-1)
      | some (argArray, slots) =>
          if call.stack = false then do
            freeAll ((List.range call.argc).map slots)
            free argArray
            free executableName
            pure (-1)
          else do
            if ← pushArgs call executableName argArray slots then
              if call.success = false then do
                free executableName
                pure (-1)
              else do
                free executableName
                pure 0
            else pure (-1)

/-! ### What each part gives back -/

theorem does_copyStrings (l : List Addr) (todo i : Nat) (slots : Slots) :
    Does (Owns ((List.range i).map slots ++ l)) (copyStrings slots i todo) fun out s =>
      Owns ((out.elim [] fun slots => (List.range (i + todo)).map slots) ++ l) s := by
  induction todo generalizing i slots with
  | zero => exact .ret fun _ owns => owns
  | succ todo ih =>
      refine .ofMalloc ?_ fun p found => ?_
      · rw [if_pos rfl]
        exact .bind (does_freeAll _ l) fun _ => .ret fun _ owns => owns
      · rw [if_neg found]
        have same : (List.range (i + 1)).map (Function.update slots i p) =
            (List.range i).map slots ++ [p] := by
          rw [List.range_succ, List.map_append, List.map_singleton, Function.update_self]
          congr 1
          refine List.map_congr_left fun j mem => Function.update_of_ne ?_ _ _
          exact Nat.ne_of_lt (List.mem_range.mp mem)
        have next := ih (i + 1) (Function.update slots i p)
        rw [same, show i + 1 + todo = i + (todo + 1) by omega] at next
        refine next.conseq (fun s owns => owns.of_perm ?_) fun _ _ h => h
        rw [List.append_assoc]
        exact List.perm_middle.symm

/-- The blocks for the arguments, with others. -/
def copies (argc : Nat) (argArray : Addr) (slots : Slots) (l : List Addr) : List Addr :=
  if argc > 0 then (List.range argc).map slots ++ argArray :: l else l

/-- The end of a branch that gives back the last two blocks. -/
theorem does_giveUp {α : Type} (p q : Addr) (l : List Addr) (x : α) :
    Does (Owns (p :: q :: l)) (do free p; free q; pure x) fun y s => y = x ∧ Owns l s :=
  .bind (does_free p (q :: l)) fun _ => .bind (does_free q l) fun _ => .ret fun _ owns => ⟨rfl, owns⟩

theorem does_copyArgs (argc : Nat) (name : Addr) (l : List Addr) :
    Does (Owns (name :: l)) (copyArgs argc name) fun out s => match out with
      | none => Owns l s
      | some (argArray, slots) => Owns (copies argc argArray slots (name :: l)) s := by
  unfold copyArgs
  by_cases given : argc > 0
  · rw [if_pos given]
    refine .ofMalloc ?_ fun argArray found => ?_
    · rw [if_pos rfl]
      exact .bind (does_free name l) fun _ => .ret fun _ owns => owns
    · rw [if_neg found]
      have strings := does_copyStrings (argArray :: name :: l) argc 0 fun _ => 0
      refine .bind strings fun out => ?_
      cases out with
      | none =>
          refine (does_giveUp argArray name l none).conseq (fun _ h => h) fun out _ given => ?_
          rw [given.1]
          exact given.2
      | some slots =>
          refine .ret fun s owns => ?_
          dsimp only
          rw [copies, if_pos given]
          rw [Nat.zero_add] at owns
          exact owns
  · rw [if_neg given]
    refine .ret fun s owns => ?_
    dsimp only
    rw [copies, if_neg given]
    exact owns

theorem does_pushStrings (call : Call) (l : List Addr) (todo i : Nat) (slots : Slots) :
    Does (Owns ((List.range' i todo).map slots ++ l)) (pushStrings call slots i todo)
      fun _ => Owns l := by
  induction todo generalizing i slots with
  | zero => exact .ret fun _ owns => owns
  | succ todo ih =>
      rw [pushStrings]
      cases call.pushString i with
      | none => exact .bind (does_freeAll _ l) fun _ => .ret fun _ owns => owns
      | some esp =>
          rw [List.range'_succ, List.map_cons, List.cons_append]
          refine .bind (does_free (slots i) _) fun _ => ?_
          have rest := ih (i + 1) (Function.update slots i esp)
          have same : (List.range' (i + 1) todo).map (Function.update slots i esp) =
              (List.range' (i + 1) todo).map slots := by
            refine List.map_congr_left fun j mem => Function.update_of_ne ?_ _ _
            have := List.mem_range'_1.mp mem
            omega
          rw [same] at rest
          exact rest

theorem does_pushArgs (call : Call) (name argArray : Addr) (slots : Slots) (l : List Addr) :
    Does (Owns (copies call.argc argArray slots (name :: l))) (pushArgs call name argArray slots)
      fun ok s => Owns (if ok then name :: l else l) s := by
  unfold pushArgs copies
  by_cases given : call.argc > 0
  · rw [if_pos given, if_pos given]
    have pushes := does_pushStrings call (argArray :: name :: l) call.argc 0 slots
    rw [← List.range_eq_range'] at pushes
    have fails : Does (Owns (argArray :: name :: l)) (do free argArray; free name; pure false)
        fun ok s => Owns (if ok then name :: l else l) s := by
      refine (does_giveUp argArray name l false).conseq (fun _ h => h) fun ok _ given => ?_
      rw [given.1]
      exact given.2
    refine .bind pushes fun ok => ?_
    cases ok with
    | false => exact fails
    | true =>
        cases call.pushArray with
        | false => exact fails
        | true => exact .bind (does_free argArray (name :: l)) fun _ => .ret fun _ owns => owns
  · rw [if_neg given, if_neg given]
    exact .ret fun _ owns => owns

/-- With arguments, or with a user stack, every block is given back, each once. -/
theorem does_loadExecutable (call : Call) (l : List Addr) (safe : call.argc > 0 ∨ call.stack = true) :
    Does (Owns l) (loadExecutable call) fun _ => Owns l := by
  unfold loadExecutable
  cases call.accepted with
  | false => exact .ret fun _ owns => owns
  | true =>
  cases call.pageDir with
  | false => exact .ret fun _ owns => owns
  | true =>
  refine .ofMalloc ?_ fun name found => ?_
  · rw [if_pos rfl]
    exact .ret fun _ owns => owns
  rw [if_neg found]
  refine .bind (does_copyArgs call.argc name l) fun out => ?_
  cases out with
  | none => exact .ret fun _ owns => owns
  | some out =>
      obtain ⟨argArray, slots⟩ := out
      dsimp only
      cases stack : call.stack with
      | false =>
          have given : call.argc > 0 := safe.resolve_right (by rw [stack]; exact Bool.false_ne_true)
          rw [copies, if_pos given]
          refine .bind (does_freeAll _ _) fun _ => ?_
          exact (does_giveUp argArray name l (-1)).conseq (fun _ h => h) fun _ _ h => h.2
      | true =>
          refine .bind (does_pushArgs call name argArray slots l) fun ok => ?_
          cases ok with
          | false => exact .ret fun _ owns => owns
          | true =>
              cases call.success with
              | false => exact .bind (does_free name l) fun _ => .ret fun _ owns => owns
              | true => exact .bind (does_free name l) fun _ => .ret fun _ owns => owns

/-! ### The discipline -/

/-- A heap of which the call has no block yet. -/
def heap (outcomes : Nat → Addr) : State := ⟨[], outcomes⟩

/-- Every `free` is given a block of the call that is out, and none is out at the end. -/
def Disciplined (call : Call) (outcomes : Nat → Addr) : Prop :=
  (loadExecutable call).Meets exec alive Legal (heap outcomes) ∧
    ((loadExecutable call).eval exec alive (heap outcomes)).1.blocks = []

/-- There are no arguments, and after the copy of the name the set-up of the user stack
fails. -/
def NullFreed (call : Call) (outcomes : Nat → Addr) : Prop :=
  call.accepted = true ∧ call.pageDir = true ∧ outcomes 0 ≠ 0 ∧ call.argc = 0 ∧ call.stack = false

/-- What `malloc` gives at the start of the call. -/
theorem eval_malloc (outcomes : Nat → Addr) :
    malloc.eval exec alive (heap outcomes) =
      (⟨if outcomes 0 = 0 then [] else [outcomes 0], fun n => outcomes (n + 1)⟩,
        some (outcomes 0)) := by
  change ((exec .malloc (heap outcomes)).1, some (exec .malloc (heap outcomes)).2) = _
  by_cases null : outcomes 0 = 0
  · simp [exec, heap, null]
  · simp [exec, heap, null]

/-- The null pointer is given to `free` as the argument array. -/
theorem not_disciplined {call : Call} {outcomes : Nat → Addr} (bare : NullFreed call outcomes) :
    ¬ Disciplined call outcomes := by
  obtain ⟨accepted, pageDir, found, argc, stack⟩ := bare
  rintro ⟨meets, -⟩
  rw [loadExecutable, if_neg (by simp [accepted]), if_neg (by simp [pageDir]), meets_bind] at meets
  have rest := meets.2 (outcomes 0) (congrArg Prod.snd (eval_malloc outcomes))
  rw [if_neg found, eval_malloc, if_neg found, argc] at rest
  have freed : (if call.stack = false then do
        freeAll []
        free 0
        free (outcomes 0)
        pure (-1)
      else do
        if ← pushArgs call (outcomes 0) 0 (fun _ => 0) then
          if call.success = false then do
            free (outcomes 0)
            pure (-1)
          else do
            free (outcomes 0)
            pure 0
        else pure (-1) : HeapProg Int).Meets exec alive Legal
      ⟨[outcomes 0], fun n => outcomes (n + 1)⟩ := rest
  rw [if_pos stack] at freed
  exact found (List.mem_singleton.mp freed.1).symm

/-- The heap is kept exactly unless a call without arguments fails at the user stack. -/
theorem load_heap_disciplined_iff (call : Call) (outcomes : Nat → Addr) :
    Disciplined call outcomes ↔ ¬ NullFreed call outcomes := by
  refine ⟨fun kept bare => not_disciplined bare kept, fun bare => ?_⟩
  by_cases safe : call.argc > 0 ∨ call.stack = true
  · exact (does_loadExecutable call [] safe).keeps_empty rfl
  rw [not_or, Nat.not_lt, Nat.le_zero, Bool.not_eq_true] at safe
  rw [Disciplined, loadExecutable]
  by_cases accepted : call.accepted = false
  · rw [if_pos accepted]
    exact ⟨trivial, rfl⟩
  rw [if_neg accepted]
  by_cases pageDir : call.pageDir = false
  · rw [if_pos pageDir]
    exact ⟨trivial, rfl⟩
  rw [if_neg pageDir]
  have null : outcomes 0 = 0 := by
    by_contra found
    exact bare ⟨by simpa using accepted, by simpa using pageDir, found, safe.1, safe.2⟩
  have fails := eval_malloc outcomes
  rw [if_pos null, null] at fails
  refine ⟨(meets_bind _ _ _).mpr ⟨⟨trivial, fun _ => trivial⟩, fun x ran => ?_⟩, ?_⟩
  · rw [fails, Option.some.injEq] at ran
    subst ran
    rw [if_pos rfl]
    trivial
  · rw [eval_bind_some fails, if_pos rfl]
    rfl

/-- No arguments, and no page tables for the user stack. -/
def noArgs : Call where
  accepted := true
  pageDir := true
  argc := 0
  stack := false
  pushString := fun _ => none
  pushArray := true
  success := true

/-- The null pointer is given to `free`. -/
theorem null_freed : ¬ Disciplined noArgs fun n => n + 1 :=
  not_disciplined ⟨rfl, rfl, by decide, rfl, rfl⟩

end OsKernel.Syscall.LoadHeap
