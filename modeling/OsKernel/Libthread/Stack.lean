/-
When the stack of a thread is freed (`user/libthread/thread.c`).

`thr_exit` sets `has_exited` and unlocks the mutex while its caller is still on its stack,
so a joiner may free the stack before the caller has entered `vanish`; and
`destruct_each_thread` frees the stack of the newest thread, which may be the caller's own,
or that of a thread that runs on. `Punctual` is about the order of the steps: nothing that
frees a stack runs while a thread is between its store of `has_exited` and its `vanish`,
no joiner is overtaken by another, and what goes wrong with the newest thread does not
come up. In such a run no stack is freed that a thread still runs on: `malloc` may have
given the memory of a stack to another thread, but no longer has the first one any.
-/

import OsKernel.Libthread.Join

namespace OsKernel.Libthread

open Run State

/-- The thread was made by `thr_create`, and may execute an instruction. -/
def Running (s : State) (u : Thread) : Prop :=
  u ≠ root ∧ u < s.count ∧ 0 ≤ (s.info u).tid ∧ s.vanished u = false

instance (s : State) (u : Thread) : Decidable (Running s u) :=
  inferInstanceAs (Decidable (_ ∧ _))

/-- The step frees no stack that a thread still runs on. -/
def FreesUnused (s : State) (input : Input) : Prop :=
  ∀ r ∈ (s.step input).stackFrees.drop s.stackFrees.length, ∀ u, Running s u →
    (s.info u).stackSpace ≠ (s.info r).stackSpace

/-- No thread is between its store of `has_exited` and its `vanish`. -/
def Settled (s : State) : Prop := ∀ u < s.count, (s.info u).hasExited = true → s.vanished u = true

instance (s : State) : Decidable (Settled s) :=
  inferInstanceAs (Decidable (∀ u < s.count, _ → _))

/-- The step of a thread that joins an exited thread, exits last or crashes comes at a
time when all are settled. Nobody joins an exited thread that somebody else is joining;
who exits last is the root thread or not the newest; and in a crash the newest thread is
the root thread, has exited or was never forked. -/
def Punctual (s : State) : Input → Prop
  | .join t tid => s.live t = true → ∀ u ∈ s.find tid, (s.info u).hasExited = true →
      Settled s ∧ (s.info u).isJoinedOn = false
  | .resume t => s.ending = false → ∀ u ∈ s.waits t, (s.info u).hasExited = true → Settled s
  | .exit t _ => s.live t = true → s.threadAliveCount ≤ 1 →
      Settled s ∧ (s.chain.getLast? = some t → t = root)
  | .crash t => s.able t = true → Settled s ∧ ∀ u ∈ s.chain.getLast?,
      u = root ∨ (s.info u).hasExited = true ∨ (s.info u).tid < 0
  | _ => True

instance (s : State) : (input : Input) → Decidable (Punctual s input)
  | .join t tid => inferInstanceAs (Decidable (s.live t = true → ∀ u ∈ s.find tid, _ → _ ∧ _))
  | .resume t => inferInstanceAs (Decidable (s.ending = false → ∀ u ∈ s.waits t, _ → Settled s))
  | .exit t _ => inferInstanceAs (Decidable (s.live t = true → _ → _ ∧ (_ → _)))
  | .crash t =>
      inferInstanceAs (Decidable (s.able t = true → _ ∧ ∀ u ∈ s.chain.getLast?, _ ∨ _ ∨ _))
  | .create .. | .vanish _ => inferInstanceAs (Decidable True)

/-- Where a step frees a stack, the record is there and its thread runs no longer. -/
def Departed (s : State) : Input → Prop
  | .join t tid => s.live t = true → ∀ u ∈ s.find tid, (s.info u).hasExited = true → ¬ Running s u
  | .resume t => s.ending = false → ∀ u ∈ s.waits t, (s.info u).hasExited = true →
      u ∈ s.chain ∧ ¬ Running s u
  | .exit t _ => s.live t = true → s.threadAliveCount ≤ 1 → ∀ u ∈ s.chain.getLast?, ¬ Running s u
  | .crash t => s.able t = true → ∀ u ∈ s.chain.getLast?, ¬ Running s u
  | _ => True

/-- The stack of the thread was made by `thr_create` and has not been freed. -/
def HasStack (s : State) (u : Thread) : Prop := u ≠ root ∧ u < s.count ∧ u ∉ s.stackFrees

structure StackInv (s : State) : Prop where
  nodup : s.chain.Nodup
  created : ∀ u ∈ s.chain, u < s.count
  freed : ∀ r ∈ s.stackFrees, r ∉ s.chain ∧ r < s.count ∧ ¬ Running s r
  out : ∀ u, HasStack s u → (s.info u).stackSpace ∈ s.stacksOut ∧ (s.info u).stackSpace ≠ 0
  apart : ∀ u w, HasStack s u → HasStack s w → (s.info u).stackSpace = (s.info w).stackSpace → u = w
  rootSpace : (s.info root).stackSpace = 0
  rootCreated : root < s.count

section
variable {s s' : State} {t u : Thread}

theorem StackInv.hasStack (inv : StackInv s) (running : Running s u) : HasStack s u :=
  ⟨running.1, running.2.1, fun freed => (inv.freed u freed).2.2 running⟩

/-- Nobody runs on the stack of a listed thread that runs no longer. -/
theorem StackInv.unused (inv : StackInv s) {r : Thread} (listed : r ∈ s.chain)
    (departed : ¬ Running s r) : ∀ u, Running s u → (s.info u).stackSpace ≠ (s.info r).stackSpace := by
  intro u running same
  have own := inv.hasStack running
  by_cases isRoot : r = root
  · rw [isRoot, inv.rootSpace] at same
    exact (inv.out u own).2 same
  · have other : HasStack s r :=
      ⟨isRoot, inv.created r listed, fun freed => (inv.freed r freed).1 listed⟩
    rw [inv.apart u r own other same] at running
    exact departed running

/-- The invariant looks at no more of a record than its thread number and its stack. -/
theorem StackInv.congr (inv : StackInv s) (chain : s'.chain = s.chain) (count : s'.count = s.count)
    (frees : s'.stackFrees = s.stackFrees) (stacksOut : s'.stacksOut = s.stacksOut)
    (tid : ∀ u, (s'.info u).tid = (s.info u).tid)
    (space : ∀ u, (s'.info u).stackSpace = (s.info u).stackSpace)
    (vanished : ∀ u, s'.vanished u = false → s.vanished u = false) : StackInv s' := by
  have running (u : Thread) (running : Running s' u) : Running s u := by
    obtain ⟨created, lt, forked, runs⟩ := running
    exact ⟨created, count ▸ lt, tid u ▸ forked, vanished u runs⟩
  have hasStack (u : Thread) (has : HasStack s' u) : HasStack s u :=
    ⟨has.1, count ▸ has.2.1, frees ▸ has.2.2⟩
  refine ⟨chain ▸ inv.nodup, ?_, fun r freed => ?_, fun u has => ?_, fun u w has has' same => ?_,
    (space root).trans inv.rootSpace, count ▸ inv.rootCreated⟩
  · rw [chain, count]
    exact inv.created
  · rw [frees] at freed
    obtain ⟨gone, lt, departed⟩ := inv.freed r freed
    rw [chain, count]
    exact ⟨gone, lt, fun runs => departed (running r runs)⟩
  · rw [space, stacksOut]
    exact inv.out u (hasStack u has)
  · rw [space, space] at same
    exact inv.apart u w (hasStack u has) (hasStack w has') same

/-- A record is written, but neither its thread number nor its stack. -/
theorem StackInv.setInfo (inv : StackInv s) (info : ThreadInfo) (tid : info.tid = (s.info u).tid)
    (space : info.stackSpace = (s.info u).stackSpace) : StackInv (s.setInfo u info) := by
  refine inv.congr rfl rfl rfl rfl (fun v => ?_) (fun v => ?_) fun _ => id
  · by_cases self : v = u
    · rw [self, setInfo_self, tid]
    · rw [setInfo_other self]
  · by_cases self : v = u
    · rw [self, setInfo_self, space]
    · rw [setInfo_other self]

theorem StackInv.cleanup (inv : StackInv s) (listed : u ∈ s.chain) (departed : ¬ Running s u) :
    StackInv (s.cleanup u) := by
  have less (v : Thread) (has : HasStack (s.cleanup u) v) : HasStack s v ∧ v ≠ u := by
    obtain ⟨created, lt, kept⟩ := has
    have kept := not_or.mp (mt List.mem_append.mpr kept)
    exact ⟨⟨created, lt, kept.1⟩, mt List.mem_singleton.mpr kept.2⟩
  refine ⟨inv.nodup.erase u, fun v kept => inv.created v (List.mem_of_mem_erase kept),
    fun r freed => ?_, fun v has => ?_, fun v w has has' => inv.apart v w (less v has).1 (less w has').1,
    inv.rootSpace, inv.rootCreated⟩
  · rcases List.mem_append.mp freed with old | new
    · obtain ⟨gone, lt, departed⟩ := inv.freed r old
      exact ⟨fun kept => gone (List.mem_of_mem_erase kept), lt, departed⟩
    · rw [List.mem_singleton.mp new]
      exact ⟨inv.nodup.not_mem_erase, inv.created u listed, departed⟩
  · obtain ⟨has, other⟩ := less v has
    obtain ⟨out, nonnull⟩ := inv.out v has
    have apart : (s.info v).stackSpace ≠ (s.info u).stackSpace := fun same => by
      by_cases isRoot : u = root
      · rw [isRoot, inv.rootSpace] at same
        exact nonnull same
      · have own : HasStack s u :=
          ⟨isRoot, inv.created u listed, fun freed => (inv.freed u freed).1 listed⟩
        exact other (inv.apart v u has own same)
    exact ⟨(List.mem_erase_of_ne apart).mpr out, nonnull⟩

theorem StackInv.create (inv : StackInv s) {stack : Addr} {tid : Int} (node : Bool)
    (fresh : s.fresh stack tid = true) : StackInv (s.create stack node tid) := by
  obtain ⟨nonnull, notOut, -⟩ := of_decide_eq_true fresh
  have old (v : Thread) (lt : v < s.count) : (s.create stack node tid).info v = s.info v :=
    setInfo_other (Nat.ne_of_lt lt) _
  have new : (s.create stack node tid).info s.count = ⟨tid, stack, false, false, 0⟩ :=
    setInfo_self ..
  have listed (v : Thread) (mem : v ∈ (s.create stack node tid).chain) : v ∈ s.chain ∨ v = s.count := by
    cases node with
    | false => exact .inl mem
    | true => exact (List.mem_append.mp mem).imp_right List.mem_singleton.mp
  have before (v : Thread) (has : HasStack (s.create stack node tid) v) : HasStack s v ∨ v = s.count :=
    (Nat.lt_succ_iff_lt_or_eq.mp has.2.1).imp_left fun lt => ⟨has.1, lt, has.2.2⟩
  -- the stacks of the others are out, and `malloc` gives none of them again
  have other (v : Thread) (has : HasStack s v) :
      ((s.create stack node tid).info v).stackSpace ≠ stack := fun same => by
    rw [old v has.2.1] at same
    exact notOut (same ▸ (inv.out v has).1)
  refine ⟨?_, fun v mem => ?_, fun r freed => ?_, fun v has => ?_, fun v w has has' same => ?_, ?_,
    Nat.lt_succ_of_lt inv.rootCreated⟩
  · cases node with
    | false => exact inv.nodup
    | true =>
        refine List.nodup_append.mpr ⟨inv.nodup, List.nodup_singleton _, ?_⟩
        rintro v mem w last rfl
        exact Nat.ne_of_lt (inv.created v mem) (List.mem_singleton.mp last)
  · rcases listed v mem with mem | rfl
    · exact Nat.lt_succ_of_lt (inv.created v mem)
    · exact Nat.lt_succ_self _
  · obtain ⟨gone, lt, departed⟩ := inv.freed r freed
    refine ⟨fun mem => (listed r mem).elim gone (Nat.ne_of_lt lt), Nat.lt_succ_of_lt lt, ?_⟩
    intro runs
    have forked := runs.2.2.1
    rw [old r lt] at forked
    exact departed ⟨runs.1, lt, forked, runs.2.2.2⟩
  · rcases before v has with has | rfl
    · rw [old v has.2.1]
      obtain ⟨out, nonnull⟩ := inv.out v has
      exact ⟨List.mem_cons_of_mem _ out, nonnull⟩
    · rw [new]
      exact ⟨List.mem_cons_self, nonnull⟩
  · rcases before v has with has | rfl
    · rcases before w has' with has' | rfl
      · rw [old v has.2.1, old w has'.2.1] at same
        exact inv.apart v w has has' same
      · exact absurd (same.trans (congrArg ThreadInfo.stackSpace new)) (other v has)
    · rcases before w has' with has' | rfl
      · exact absurd (same.symm.trans (congrArg ThreadInfo.stackSpace new)) (other w has')
      · rfl
  · rw [old root inv.rootCreated]
    exact inv.rootSpace

/-- `destruct_each_thread` frees no stack but the newest one. -/
theorem destructLoop_frees (n : Nat) (nodup : s.chain.Nodup) :
    ∃ more, (destructLoop n s).stackFrees = s.stackFrees ++ more ∧
      ∀ r ∈ more, r ∈ s.chain.getLast? := by
  induction n generalizing s with
  | zero => exact ⟨[], (List.append_nil _).symm, nofun⟩
  | succ n ih =>
      rcases List.eq_nil_or_concat s.chain with empty | ⟨front, last, chain⟩
      · refine ⟨[], ?_, nofun⟩
        simp [State.destructLoop, empty]
      · rw [List.concat_eq_append] at chain
        obtain ⟨s₁, first, chain₁, frees₁⟩ := destructLoop_last n chain
        obtain ⟨more, frees, newest⟩ := ih (chain₁ ▸ nodup.erase _)
        rw [chain] at nodup
        have stays : ∀ r ∈ s₁.chain.getLast?, r = last := by
          rw [chain₁, chain]
          rcases List.eq_nil_or_concat front with rfl | ⟨front, node, rfl⟩
          · simp
          · rw [List.concat_eq_append] at nodup ⊢
            rw [List.getLast?_concat, Option.getD_some, erase_node nodup, List.getLast?_concat]
            exact fun r newest => (Option.some.inj newest).symm
        rw [chain, List.getLast?_concat]
        refine ⟨last :: more, ?_, fun r mem => ?_⟩
        · rw [first, frees, frees₁, List.append_assoc]
          rfl
        · rcases List.mem_cons.mp mem with rfl | mem
          · rfl
          · exact congrArg some (stays r (newest r mem)).symm

/-- What a step frees is unused, and the invariant holds as long as nobody is on the way
to `task_vanish`. -/
structure Follows (s s' : State) : Prop where
  unused : ∀ r ∈ s'.stackFrees.drop s.stackFrees.length, ∀ u, Running s u →
    (s.info u).stackSpace ≠ (s.info r).stackSpace
  sound : s'.ending = true ∨ StackInv s'

theorem Follows.of_frees {more : List Thread} (frees : s'.stackFrees = s.stackFrees ++ more)
    (unused : ∀ r ∈ more, ∀ u, Running s u → (s.info u).stackSpace ≠ (s.info r).stackSpace)
    (sound : s'.ending = true ∨ StackInv s') : Follows s s' := by
  refine ⟨?_, sound⟩
  rw [frees, List.drop_left]
  exact unused

theorem Follows.quiet (frees : s'.stackFrees = s.stackFrees) (sound : s'.ending = true ∨ StackInv s') :
    Follows s s' :=
  .of_frees (frees.trans (List.append_nil _).symm) (fun _ => nofun) sound

theorem StackInv.follows_join (inv : StackInv s) {tid : Int}
    (departed : ∀ u ∈ s.find tid, (s.info u).hasExited = true → ¬ Running s u) :
    Follows s (s.join t tid) := by
  unfold State.join
  cases found : s.find tid with
  | none => exact .quiet rfl (.inr inv)
  | some u =>
      have listed : u ∈ s.chain := List.mem_of_find?_eq_some found
      dsimp only
      split
      · rename_i exited
        have gone := departed u found exited
        refine .of_frees rfl (fun r mem => ?_) (.inr (inv.cleanup listed gone))
        rw [List.mem_singleton.mp mem]
        exact inv.unused listed gone
      · split
        · exact .quiet rfl (.inr inv)
        · have marked := inv.setInfo { s.info u with isJoinedOn := true } rfl rfl
          exact .quiet rfl (.inr (marked.congr rfl rfl rfl rfl (fun _ => rfl) (fun _ => rfl)
            fun _ => id))

theorem StackInv.follows_resume (inv : StackInv s)
    (departed : ∀ u ∈ s.waits t, (s.info u).hasExited = true → u ∈ s.chain ∧ ¬ Running s u) :
    Follows s (s.resume t) := by
  unfold State.resume
  cases waits : s.waits t with
  | none => exact .quiet rfl (.inr inv)
  | some u =>
      dsimp only
      split
      · rename_i exited
        obtain ⟨listed, gone⟩ := departed u waits exited
        refine .of_frees rfl (fun r mem => ?_) (.inr ((inv.cleanup listed gone).congr rfl rfl rfl rfl
          (fun _ => rfl) (fun _ => rfl) fun _ => id))
        rw [List.mem_singleton.mp mem]
        exact inv.unused listed gone
      · exact .quiet rfl (.inr inv)

theorem StackInv.follows_destruct (inv : StackInv s)
    (departed : ∀ u ∈ s.chain.getLast?, ¬ Running s u) : Follows s s.destructEachThread := by
  obtain ⟨more, frees, newest⟩ := destructLoop_frees s.chain.length inv.nodup
  refine .of_frees frees (fun r mem => ?_) (.inl rfl)
  have last := newest r mem
  exact inv.unused (List.mem_of_getLast? last) (departed r last)

theorem StackInv.follows_exit (inv : StackInv s) {status : Status}
    (departed : s.threadAliveCount ≤ 1 → ∀ u ∈ s.chain.getLast?, ¬ Running s u) :
    Follows s (s.exit t status) := by
  unfold State.exit
  split
  · rename_i last
    exact inv.follows_destruct (departed last)
  · cases s.findLast (s.info t).tid with
    | none => exact .quiet rfl (.inr inv)
    | some u =>
        have saved := inv.setInfo { s.info u with hasExited := true, status := status } rfl rfl
        exact .quiet rfl (.inr (saved.congr rfl rfl rfl rfl (fun _ => rfl) (fun _ => rfl)
          fun _ => id))

end

theorem StackInv.follows {s : State} {input : Input} (inv : StackInv s)
    (departed : Departed s input) : Follows s (s.step input) := by
  refine step_cases s input (.quiet rfl (.inr inv)) ?_ ?_ ?_ ?_ (fun t => ?_) ?_
  · rintro t stack node tid rfl fresh
    exact .quiet rfl (.inr (inv.create node fresh))
  · rintro t tid rfl runs
    exact inv.follows_join (departed runs)
  · rintro t rfl goesOn
    exact inv.follows_resume (departed goesOn)
  · rintro t status rfl runs
    exact inv.follows_exit (departed runs)
  · refine .quiet rfl (.inr (inv.congr rfl rfl rfl rfl (fun _ => rfl) (fun _ => rfl)
      fun u runs => ?_))
    by_cases self : u = t
    · rw [self] at runs
      exact nomatch (Function.update_self ..).symm.trans runs
    · exact (Function.update_of_ne self ..).symm.trans runs
  · rintro t rfl runs
    exact inv.follows_destruct (departed runs)

/-- On the way to `task_vanish` nothing more is freed. -/
theorem step_of_ending {s : State} (input : Input) (ending : s.ending = true) :
    (s.step input).stackFrees = s.stackFrees ∧ (s.step input).ending = true := by
  have unable (t : Thread) : s.able t = false := by simp [State.able, ending]
  have notLive (t : Thread) : s.live t = false := by simp [State.live, unable]
  cases input with
  | create t creation =>
      cases creation with
      | noMemory => exact ⟨rfl, ending⟩
      | made stack node tid => simp [State.step, notLive, ending]
  | vanish t =>
      unfold State.step
      dsimp only
      split
      · exact ⟨rfl, ending⟩
      · exact ⟨rfl, ending⟩
  | _ => simp [State.step, notLive, unable, ending]

theorem StackInv.init (tid : Int) : StackInv (.init tid) where
  nodup := List.nodup_singleton root
  created u mem := by
    rw [List.mem_singleton.mp mem]
    exact Nat.zero_lt_one
  freed := nofun
  out u has := absurd (Nat.lt_one_iff.mp has.2.1) has.1
  apart u w has _ _ := absurd (Nat.lt_one_iff.mp has.2.1) has.1
  rootSpace := rfl
  rootCreated := Nat.zero_lt_one

/-! ### Punctual runs -/

/-- An exited thread of a settled state runs no longer. -/
theorem Settled.departed {s : State} {u : Thread} (settled : Settled s)
    (exited : (s.info u).hasExited = true) : ¬ Running s u := by
  rintro ⟨-, lt, -, runs⟩
  rw [settled u lt exited] at runs
  cases runs

/-- With one thread alive, every other thread in the chain has exited. -/
theorem exited_of_last {s : State} {t u : Thread} (runs : s.live t = true)
    (last : s.threadAliveCount ≤ 1) (mem : u ∈ s.chain) (other : u ≠ t) :
    (s.info u).hasExited = true := by
  simp only [State.live, Bool.and_eq_true, Bool.not_eq_true'] at runs
  have own := mem_of_able runs.1
  by_contra alive
  rw [Bool.not_eq_true] at alive
  have first : t ∈ s.chain.filter fun v => !(s.info v).hasExited :=
    List.mem_filter.mpr ⟨own, by rw [runs.2]; rfl⟩
  have second : u ∈ s.chain.filter fun v => !(s.info v).hasExited :=
    List.mem_filter.mpr ⟨mem, by rw [alive]; rfl⟩
  rw [State.threadAliveCount, List.countP_eq_length_filter] at last
  cases both : s.chain.filter fun v => !(s.info v).hasExited with
  | nil =>
      rw [both] at first
      cases first
  | cons v rest =>
      rw [both, List.length_cons] at last
      have empty : rest = [] := List.length_eq_zero_iff.mp (by omega)
      rw [both, empty, List.mem_singleton] at first second
      exact other (second.trans first.symm)

theorem JoinInv.departed {s : State} {input : Input} (inv : JoinInv s)
    (punctual : Punctual s input) : Departed s input := by
  cases input with
  | join t tid => exact fun runs u found exited => (punctual runs u found exited).1.departed exited
  | resume t =>
      intro goesOn u waits exited
      exact ⟨(inv.waiting t u waits).2.2.1, (punctual goesOn u waits exited).departed exited⟩
  | exit t status =>
      intro runs last u newest
      obtain ⟨settled, own⟩ := punctual runs last
      by_cases self : u = t
      · subst self
        exact fun running => running.1 (own newest)
      · exact settled.departed
          (exited_of_last runs last (List.mem_of_getLast? newest) self)
  | crash t =>
      intro runs u newest
      obtain ⟨settled, newest⟩ := (punctual runs).imp_right fun each => each u newest
      rcases newest with rfl | exited | unforked
      · exact fun running => running.1 rfl
      · exact settled.departed exited
      · exact fun running => absurd running.2.2.1 (Int.not_le.mpr unforked)
  | create | vanish => trivial

/-- A punctual step starts the end, or is one of those after which joins stay single. -/
theorem ends_or_alone {s : State} {input : Input} (punctual : Punctual s input) :
    (s.step input).ending = true ∨ Alone s input := by
  cases input with
  | join t tid => exact .inr fun runs u found exited => (punctual runs u found exited).2
  | exit t status =>
      by_cases last : s.live t = true ∧ s.threadAliveCount ≤ 1
      · left
        simp [State.step, last.1, State.exit, last.2, State.destructEachThread]
      · exact .inr fun runs alive => absurd ⟨runs, alive⟩ last
  | crash t =>
      by_cases runs : s.able t = true
      · left
        simp [State.step, runs, State.destructEachThread]
      · exact .inr fun runs' => absurd runs' runs
  | create | resume | vanish => exact .inr trivial

/-- The root thread joins a thread, a stack is used again, and the root thread goes last. -/
def inOrder : List Input :=
  [.create root (.made 100 true 11), .exit 1 7, .vanish 1, .join root 11,
    .create root (.made 100 true 12), .join root 12, .exit 2 8, .vanish 2, .resume root, .exit root 0]

end OsKernel.Libthread
