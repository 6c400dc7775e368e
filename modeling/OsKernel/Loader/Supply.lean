/-
The loader where memory does not run out.

`Fills` says what the loader leaves when it succeeds, and `Achieves` that it does succeed:
from a directory that is as planned, with a kernel heap that never fails and `n` free
frames. A walk over a range takes at most one frame a page. So a guest whose arguments are
few gets its memory and its stack, and the loader comes to its sections
(`achieves_loadStack`).
-/

import OsKernel.Loader.Stack
import OsKernel.Vm.Supply

namespace OsKernel.Loader

open OsKernel.Vm OsKernel.Memory OsKernel.Syscall Prog

/-- The program comes to its end with `Q`, from a planned directory and `n` free frames, of
which it leaves `k`. -/
def Achieves (d t : Nat) (z : Nat → UInt8) (n k : Nat) {α : Type} (plan : Plan)
    (p : Program α) (Q : α → Plan → Prop) : Prop :=
  Does (Kernel.exec t) (Kernel.alive t) (fun _ _ => True)
    (fun s => Fits d z s.mem plan ∧ s.mem.vm.Supplied n) p
    fun x s => ∃ plan', Fits d z s.mem plan' ∧ s.mem.vm.Supplied k ∧ Q x plan'

section
variable {d t n k : Nat} {z : Nat → UInt8} {α β : Type} {plan : Plan}

theorem Achieves.ret {x : α} {Q : α → Plan → Prop} (h : Q x plan) :
    Achieves d t z n n plan (pure x) Q :=
  Does.ret fun _ ⟨fits, supplied⟩ => ⟨plan, fits, supplied, h⟩

theorem Achieves.conseq {p : Program α} {Q Q' : α → Plan → Prop} (h : Achieves d t z n k plan p Q)
    (post : ∀ x plan', Q x plan' → Q' x plan') : Achieves d t z n k plan p Q' :=
  Does.conseq h (fun _ pre => pre) fun x _ ⟨plan', fits, supplied, q⟩ =>
    ⟨plan', fits, supplied, post x plan' q⟩

theorem Achieves.bind {l : Nat} {p : Program α} {f : α → Program β} {Q : α → Plan → Prop}
    {Q' : β → Plan → Prop} (first : Achieves d t z n k plan p Q)
    (next : ∀ x plan', Q x plan' → Achieves d t z k l plan' (f x) Q') :
    Achieves d t z n l plan (p >>= f) Q' := by
  refine Does.bind first fun x => ?_
  rintro s ⟨plan', fits, supplied, q⟩
  exact next x plan' q s ⟨fits, supplied⟩

/-- Fewer frames are needed than there are, or more are left. -/
theorem Achieves.less {n' k' : Nat} {p : Program α} {Q : α → Plan → Prop}
    (h : Achieves d t z n k plan p Q) (more : n ≤ n') (left : k' ≤ k) :
    Achieves d t z n' k' plan p Q :=
  Does.conseq h (fun _ pre => ⟨pre.1, pre.2.mono more⟩) fun _ _ ⟨plan', fits, supplied, q⟩ =>
    ⟨plan', fits, supplied.mono left, q⟩

/-- What the program does to the directory is known; that it succeeds is left. -/
theorem Achieves.of_fills {p : Program α} {Q : α → Plan → Prop} {R : α → Prop}
    (fills : Fills d t z (fun _ => True) plan p Q)
    (supply : Does (Kernel.exec t) (Kernel.alive t) (fun _ _ => True)
      (fun s => Fits d z s.mem plan ∧ s.mem.vm.Supplied n) p
      fun x s => s.mem.vm.Supplied k ∧ R x) :
    Achieves d t z n k plan p fun x plan' => R x ∧ Q x plan' := by
  intro s pre
  refine ⟨(supply s pre).1, fun x ran => ?_⟩
  obtain ⟨plan', fits, q⟩ := (fills s pre.1).2 x ran
  obtain ⟨supplied, r⟩ := (supply s pre).2 x ran
  exact ⟨plan', fits, supplied, r, q⟩

/-- The result of such a program, and what is left. -/
theorem Achieves.eval {p : Program α} {Q : α → Plan → Prop} (h : Achieves d t z n k plan p Q)
    {s s' : Kernel} {x : α} (fits : Fits d z s.mem plan) (supplied : s.mem.vm.Supplied n)
    (ran : s.eval t p = (s', some x)) : s'.mem.vm.Supplied k ∧ ∃ plan', Q x plan' := by
  obtain ⟨plan', -, left, q⟩ := (h s ⟨fits, supplied⟩).2 x (by rw [← Kernel.eval, ran])
  rw [← Kernel.eval, ran] at left
  exact ⟨left, plan', q⟩

/-- A page that is not mapped. -/
theorem Fits.unmapped {m : Mem} {q : Nat} {avail : Availability} (h : Fits d z m plan)
    (user : UserPage q) (look : plan.sight q = .unmapped avail) :
    ∃ pd, m.vm.dirs d = some pd ∧ stateOf pd q = .unmapped avail := by
  obtain ⟨x, here, seen⟩ := h.state user
  obtain ⟨space, hd, at'⟩ := Option.map_eq_some_iff.mp here
  obtain ⟨pd, dir, rfl⟩ := Option.map_eq_some_iff.mp hd
  refine ⟨pd, dir, at'.trans ?_⟩
  rcases sight_cases x with ⟨_, rfl, look'⟩ | ⟨pte, -, -, look'⟩ | ⟨pte, -, -, look'⟩ <;>
    rw [look', look] at seen <;> cases seen
  rfl

/-! ### Pages -/

theorem achieves_open {v : Nat} {avail : Availability} (user : UserPage (pageOf v))
    (look : plan.sight (pageOf v) = .unmapped avail) :
    Achieves d t z n n plan (Memory.act (.setAvailability d v 1)) fun ok plan' =>
      ok = true ∧ plan' = plan.set (pageOf v) (.unmapped .available) := by
  refine Achieves.conseq (Achieves.of_fills (R := fun ok => ok = true) (applies_open v plan trivial)
    (Does.perform (fun _ _ => trivial) fun s pre _ => ?_)) fun ok plan' h => ?_
  · obtain ⟨pd, dir, unmapped⟩ := pre.1.unmapped user look
    obtain ⟨-, mem, result⟩ := exec_setAvailability t s d v 1
    obtain ⟨ok, supplied⟩ := pre.2.setAvailability dir user unmapped
      (show Availability.ofNat? 1 = some .available from rfl)
    rw [mem, result]
    exact ⟨supplied, ok⟩
  · obtain ⟨-, s, rule, eq⟩ := h.2 h.1
    rw [look] at rule
    cases rule
    exact ⟨h.1, eq⟩

/-- `map_new_frame` and `memset`. -/
theorem achieves_mapAndClearNew {v : Nat} {avail : Availability} (user : UserPage (pageOf v))
    (look : plan.sight (pageOf v) = .unmapped avail) :
    Achieves d t z (n + 1) n plan (mapAndClearNew d v) fun ok plan' =>
      ok = true ∧ plan' = plan.set (pageOf v) (.otherFrame .readWrite) := by
  refine Achieves.conseq (Achieves.of_fills (R := fun ok => ok = true)
    (fills_mapAndClearNew user look fun _ _ _ => trivial) ?_) fun ok plan' h => ⟨h.1, h.2 h.1⟩
  refine Does.bind (Q := fun ok s => ok = true ∧ s.mem.vm.Supplied n)
    (Does.perform (fun _ _ => trivial) fun s pre _ => ?_) fun ok => ?_
  · obtain ⟨pd, dir, unmapped⟩ := pre.1.unmapped user look
    exact pre.2.mapNewFrame dir user unmapped
  · cases ok with
    | false => exact Does.ret fun s h => ⟨h.2, h.1⟩
    | true =>
        refine Does.bind (Q := fun _ s => s.mem.vm.Supplied n)
          (Does.perform (fun _ _ => trivial) fun s h _ => ?_) fun _ => Does.ret fun s h => ⟨h, rfl⟩
        have vm : (s.mem.clearPage d v).vm = s.mem.vm := by
          unfold Mem.clearPage
          split <;> rfl
        change (s.mem.clearPage d v).vm.Supplied n
        rw [vm]
        exact h.2

theorem achieves_mapZeroFrame {v : Nat} {avail : Availability} (user : UserPage (pageOf v))
    (look : plan.sight (pageOf v) = .unmapped avail) :
    Achieves d t z n n plan (Memory.act (.mapZeroFrame d v)) fun ok plan' =>
      ok = true ∧ plan' = plan.set (pageOf v) (.zeroFrame .readOnly) := by
  refine Achieves.conseq (Achieves.of_fills (R := fun ok => ok = true) (fills_mapZeroFrame look)
    (Does.perform (fun _ _ => trivial) fun s pre _ => ?_)) fun ok plan' h => ⟨h.1, h.2 h.1⟩
  obtain ⟨pd, dir, unmapped⟩ := pre.1.unmapped user look
  exact (pre.2.mapZeroFrame dir user unmapped).symm

theorem achieves_checkUserPage {v : Nat} (user : UserPage (pageOf v)) :
    Achieves d t z n n plan (Memory.act (.checkUserPage d v)) fun r plan' =>
      (∃ info, r = some info) ∧ plan' = plan ∧ Told plan (pageOf v) r := by
  refine Achieves.of_fills (fills_checkUserPage v) (Does.perform (fun _ _ => trivial)
    fun s pre _ => ⟨pre.2, ?_⟩)
  obtain ⟨space, hd⟩ := Option.isSome_iff_exists.mp pre.1.live
  rcases checkUserPage_cases hd user with ⟨_, seen, -⟩ | ⟨_, seen, -⟩ | ⟨_, seen, -⟩ |
    ⟨_, seen, -⟩ <;> exact ⟨_, seen⟩

theorem achieves_getAvailability {v : Nat} {avail : Availability} (user : UserPage (pageOf v))
    (look : plan.sight (pageOf v) = .unmapped avail) :
    Achieves d t z n n plan (Memory.act (.getAvailability d v)) fun r plan' =>
      r = some avail ∧ plan' = plan := by
  refine Achieves.conseq (Achieves.of_fills (R := fun r => r = some avail) (fills_getAvailability v)
    (Does.perform (fun _ _ => trivial) fun s pre _ => ⟨pre.2, ?_⟩)) fun r plan' h => ⟨h.1, h.2.1⟩
  obtain ⟨pd, dir, unmapped⟩ := pre.1.unmapped user look
  have hd : s.mem.vm.abs.space d = some (stateOf pd) := congrArg (Option.map stateOf) dir
  exact getAvailability_of_space user hd unmapped

/-- `map_and_clear` can fill a page that is not mapped only where it is available. -/
theorem available_of_mapRule {zeroFrame : Bool} {look s : Sight} {avail : Availability}
    (rule : mapRule zeroFrame look = some s) (unmapped : look = .unmapped avail) :
    look = .unmapped .available := by
  subst unmapped
  cases avail with
  | available => rfl
  | unavailable => cases rule

/-- A page of `map_and_clear` costs a frame at most. -/
theorem achieves_mapAndClearPage {zeroFrame : Bool} {v : Nat} {s : Sight}
    (user : UserPage (pageOf v)) (rule : mapRule zeroFrame (plan.sight (pageOf v)) = some s) :
    Achieves d t z (n + 1) n plan (mapAndClearPage d zeroFrame v) fun ok plan' =>
      ok = true ∧ plan' = plan.set (pageOf v) s := by
  have skip : plan.sight (pageOf v) = s → Achieves d t z (n + 1) n plan (pure true) fun ok plan' =>
      ok = true ∧ plan' = plan.set (pageOf v) s := by
    rintro rfl
    have same : plan = plan.set (pageOf v) (plan.sight (pageOf v)) := by
      rw [Plan.set, Function.update_eq_self]
    exact (Achieves.ret ⟨rfl, same⟩).less (Nat.le_succ n) (Nat.le_refl n)
  refine Achieves.bind (achieves_checkUserPage user) ?_
  rintro _ _ ⟨⟨info, rfl⟩, rfl, told⟩
  cases info with
  | pdeNotPresent | pteNotPresent =>
      obtain ⟨-, avail, unmapped⟩ := told
      have look := available_of_mapRule rule unmapped
      refine Achieves.bind (achieves_getAvailability user look) ?_
      rintro _ _ ⟨rfl, rfl⟩
      rw [look] at rule
      cases zeroFrame with
      | true =>
          cases rule
          exact (achieves_mapZeroFrame user look).less (Nat.le_succ n) (Nat.le_refl n)
      | false =>
          cases rule
          exact achieves_mapAndClearNew user look
  | zeroFrameMapped =>
      obtain ⟨-, bit, look⟩ := told
      rw [look] at rule
      exact skip (look.trans (Option.some.inj rule))
  | newFrameMapped =>
      obtain ⟨-, bit, look⟩ := told
      rw [look] at rule
      exact skip (look.trans (Option.some.inj rule))

theorem achieves_malloc {size : Nat} (small : size < userMemStart) :
    Achieves d t z n n plan (Memory.act (.malloc size)) fun ok plan' => ok = true ∧ plan' = plan := by
  refine Does.perform (fun _ _ => trivial) fun s pre _ => ?_
  obtain ⟨vm, malloc, supplied, -⟩ := pre.2.malloc
  have ran : Kernel.exec t (.malloc size) s = s.setVm (true, vm) := by
    rw [Kernel.exec, if_neg (Nat.not_le.mpr small), malloc]
  have same : Same d s.mem (s.mem.withVm vm) := by
    obtain rfl : s.mem.vm.malloc.2 = vm := congrArg Prod.snd malloc
    exact ⟨within_malloc pre.1.wf d, fun _ => rfl, rfl⟩
  rw [ran]
  exact ⟨plan, pre.1.same same, supplied, rfl, rfl⟩

theorem achieves_mallocs {sizes : List Nat} (small : ∀ size ∈ sizes, size < userMemStart) :
    Achieves d t z n n plan (mallocs sizes) fun ok plan' => ok = true ∧ plan' = plan := by
  induction sizes with
  | nil => exact .ret ⟨rfl, rfl⟩
  | cons size sizes ih =>
      refine Achieves.bind (achieves_malloc (small size List.mem_cons_self)) ?_
      rintro _ _ ⟨rfl, rfl⟩
      exact ih fun size mem => small size (List.mem_cons_of_mem _ mem)

/-! ### Walks -/

theorem achieves_walk {f : Sight → Option Sight} (settles : Settles f) {op : Nat → Program Bool}
    {vs : List Nat}
    (each : ∀ v ∈ vs, ∀ n plan s, UserPage (pageOf v) → f (plan.sight (pageOf v)) = some s →
      Achieves d t z (n + 1) n plan (op v) fun ok plan' =>
        ok = true ∧ plan' = plan.set (pageOf v) s)
    (ready : ∀ q, Visits vs q → UserPage q ∧ (f (plan.sight q)).isSome = true) :
    Achieves d t z (n + vs.length) n plan (forAll op vs) fun ok plan' =>
      ok = true ∧ plan' = plan.walk f (Visits vs) := by
  induction vs generalizing plan with
  | nil =>
      refine .ret ⟨rfl, (plan.walk_none f ?_).symm⟩
      rintro q ⟨v, mem, -⟩
      cases mem
  | cons v vs ih =>
      obtain ⟨user, rule⟩ := ready _ (visits_cons.mpr (.inl rfl))
      obtain ⟨s, rule⟩ := Option.isSome_iff_exists.mp rule
      refine Achieves.bind (each v List.mem_cons_self (n + vs.length) plan s user rule) ?_
      rintro _ _ ⟨rfl, rfl⟩
      refine Achieves.conseq (ih (fun u mem => each u (List.mem_cons_of_mem v mem))
        fun q here => ?_) fun ok plan' h => ?_
      · obtain ⟨user', rule'⟩ := ready q (visits_cons.mpr (.inr here))
        refine ⟨user', ?_⟩
        rw [Plan.set]
        dsimp only
        by_cases same : q = pageOf v
        · rw [same, Function.update_self, settles _ _ rule]
          rfl
        · rwa [Function.update_of_ne same]
      · exact ⟨h.1, h.2.trans (walk_cons plan settles rule vs)⟩

theorem pagesOf_length_le (addr size : Nat) : (pagesOf addr size).length ≤ size / pageSize + 2 := by
  unfold pagesOf
  split
  · exact Nat.zero_le _
  · rw [List.length_map, List.length_range]
    simp only [pageSize]
    omega

theorem achieves_changeAvailability {addr size : Nat}
    (closed : ∀ q, Visits (pagesOf addr size) q →
      UserPage q ∧ ∃ avail, plan.sight q = .unmapped avail) :
    Achieves d t z (n + (size / pageSize + 2)) n plan (changeAvailability d addr size 1)
      fun ok plan' => ok = true ∧ plan' = plan.walk openRule (Visits (pagesOf addr size)) := by
  refine (achieves_walk settles_open (fun v _ n plan s user rule => ?_) fun q here => ?_).less
    (Nat.add_le_add_left (pagesOf_length_le addr size) n) (Nat.le_refl n)
  · cases look : plan.sight (pageOf v) with
    | unmapped avail =>
        rw [look] at rule
        cases rule
        exact (achieves_open user look).less (Nat.le_succ n) (Nat.le_refl n)
    | zeroFrame bit =>
        rw [look] at rule
        cases rule
    | otherFrame bit =>
        rw [look] at rule
        cases rule
  · obtain ⟨user, avail, look⟩ := closed q here
    rw [look]
    exact ⟨user, rfl⟩

theorem achieves_mapAndClear {addr size : Nat} (zeroFrame : Bool)
    (ready : ∀ q, Visits (pagesOf addr size) q →
      UserPage q ∧ (mapRule zeroFrame (plan.sight q)).isSome = true) :
    Achieves d t z (n + (size / pageSize + 2)) n plan (mapAndClear d addr size zeroFrame)
      fun ok plan' => ok = true ∧
        plan' = plan.walk (mapRule zeroFrame) (Visits (pagesOf addr size)) :=
  (achieves_walk (settles_map zeroFrame) (fun _ _ _ _ _ user rule =>
    achieves_mapAndClearPage user rule) ready).less
      (Nat.add_le_add_left (pagesOf_length_le addr size) n) (Nat.le_refl n)

/-! ### Bytes -/

theorem achieves_placeByte {v : Nat} (user : UserPage (pageOf v))
    (own : Own (plan.sight (pageOf v))) (b : UInt8) :
    Achieves d t z n n plan (placeByte d v b) fun _ plan' => plan'.sight = plan.sight := by
  refine Achieves.conseq (Achieves.of_fills (R := fun _ => True)
    (fills_placeByte user own trivial b) ?_) fun _ plan' h => by rw [h.2]; rfl
  refine Does.bind (Q := fun ok s => ok = true ∧ s.mem.vm.Supplied n)
    (Does.perform (fun _ _ => trivial) fun s pre _ => ?_) fun ok => ?_
  · have page : pageOf (v % virtualAddrEnd) = pageOf v := by simp [pageOf]
    have addr : UserAddr (v % virtualAddrEnd) := ⟨Nat.mod_lt _ (by decide), page.symm ▸ user⟩
    obtain ⟨mem, stored, vm, -⟩ := pre.1.kstore addr (page.symm ▸ own) b
    have ran : Kernel.exec t (.place d v b) s = ({ s with mem := mem }, true) := by
      rw [Kernel.exec, Kernel.kstore, stored]
    rw [ran]
    refine ⟨rfl, ?_⟩
    change mem.vm.Supplied n
    rw [vm]
    exact pre.2
  · cases ok with
    | false => exact fun s h => by cases h.1
    | true => exact Does.ret fun s h => ⟨h.2, trivial⟩

theorem achieves_placeBytes (bytes : List UInt8) (v : Nat)
    (inside : ∀ i < bytes.length, UserPage (pageOf (v + i)) ∧ Own (plan.sight (pageOf (v + i)))) :
    Achieves d t z n n plan (placeBytes d v bytes) fun _ plan' => plan'.sight = plan.sight := by
  induction bytes generalizing v plan with
  | nil => exact .ret rfl
  | cons b bytes ih =>
      obtain ⟨user, own⟩ := inside 0 (by simp)
      refine Achieves.bind (achieves_placeByte user own b) fun _ plan' same => ?_
      refine Achieves.conseq (ih (v + 1) fun i hi => ?_) fun _ plan'' h => h.trans same
      have next := inside (i + 1) (by simpa using hi)
      rw [same]
      rwa [Nat.add_assoc, Nat.add_comm 1 i]

/-! ### The stack of a guest -/

/-- Every page of the range has a frame of its own. -/
def Mapped (low top : Nat) (plan : Plan) : Prop :=
  ∀ q, InRange low top q → UserPage q ∧ plan.sight q = .otherFrame .readWrite

theorem Mapped.congr {low top : Nat} {plan' : Plan} (h : Mapped low top plan)
    (same : plan'.sight = plan.sight) : Mapped low top plan' := fun q here => by
  rw [same]
  exact h q here

theorem Mapped.within {low low' top top' : Nat} (h : Mapped low top plan) (le : low ≤ low')
    (le' : top' ≤ top) : Mapped low' top' plan := by
  rintro q ⟨w, above, below, page⟩
  exact h q ⟨w, by omega, by omega, page⟩

/-- What is mapped is left as it is. -/
theorem Mapped.walk {low top : Nat} (h : Mapped low top plan) (zeroFrame : Bool) :
    plan.walk (mapRule zeroFrame) (InRange low top) = plan := by
  have same : (plan.walk (mapRule zeroFrame) (InRange low top)).sight = plan.sight := by
    funext q
    by_cases here : InRange low top q
    · have look := (h q here).2
      rw [look]
      exact plan.walk_sight here (by rw [look]; rfl)
    · exact plan.walk_sight_off _ here
  rw [Plan.walk] at same ⊢
  dsimp only at same
  rw [same]

theorem achieves_mapMapped {low top : Nat} (le : low ≤ top)
    (mapped : Mapped low top plan) (zeroFrame : Bool) :
    Achieves d t z (n + ((top - low) / pageSize + 2)) n plan
      (mapAndClear d low (top - low) zeroFrame) fun ok plan' => ok = true ∧ plan' = plan := by
  refine Achieves.conseq (achieves_mapAndClear zeroFrame fun q here => ?_) fun ok plan' h => ?_
  · rw [visits_inRange le] at here
    obtain ⟨user, look⟩ := mapped q here
    rw [look]
    exact ⟨user, rfl⟩
  · rw [visits_inRange le, mapped.walk] at h
    exact h

theorem achieves_pushVal {top : Nat} {val : List UInt8} (sized : Sized val)
    (high : userMemStart ≤ pushTo top val.length) (fits : top ≤ virtualAddrEnd)
    (mapped : Mapped (pushTo top val.length) top plan) :
    Achieves d t z (n + ((top - pushTo top val.length) / pageSize + 2)) n plan
      (pushVal d (top % virtualAddrEnd) val) fun r plan' =>
        (∃ placed, r = some (pushTo top val.length, placed)) ∧ plan'.sight = plan.sight := by
  have pos : 0 < val.length := List.length_pos_iff.mpr sized.1
  have le := pushTo_le top val.length
  obtain ⟨newEsp, size, pad⟩ := pushVal_esp pos sized.2 (Nat.le_trans high le) fits
  rw [pushVal, if_neg sized.1, newEsp]
  dsimp only
  rw [size]
  refine Achieves.bind (achieves_mapMapped le mapped false) ?_
  rintro _ _ ⟨rfl, rfl⟩
  generalize padding : List.replicate _ (0 : UInt8) = zeros
  refine Achieves.bind (achieves_placeBytes _ _ fun i hi => ?_) fun _ plan' same =>
    .ret ⟨⟨_, rfl⟩, same⟩
  have room : (val ++ zeros).length ≤ top - pushTo top val.length := by
    rw [List.length_append, ← padding, List.length_replicate]
    omega
  obtain ⟨user, look⟩ := mapped _ ⟨pushTo top val.length + i, by omega, by omega, rfl⟩
  exact ⟨user, _, look⟩

theorem achieves_pushVals {top : Nat} {vals : List (List UInt8)} (sizes : ∀ val ∈ vals, Sized val)
    (high : userMemStart ≤ bottom top vals) (fits : top ≤ virtualAddrEnd)
    (mapped : Mapped (bottom top vals) top plan) :
    Achieves d t z (n + ((top - bottom top vals) + 2 * vals.length)) n plan
      (pushVals d (top % virtualAddrEnd) vals) fun r plan' =>
        (∃ placed, r = some ((layout top vals).map (·.1), placed)) ∧ plan'.sight = plan.sight := by
  induction vals generalizing top plan n with
  | nil => exact (Achieves.ret ⟨⟨_, rfl⟩, rfl⟩).less (Nat.le_add_right _ _) (Nat.le_refl n)
  | cons val vals ih =>
      have sized := sizes val List.mem_cons_self
      have low : bottom top (val :: vals) ≤ pushTo top val.length :=
        bottom_le (pushTo top val.length) vals
      have le := pushTo_le top val.length
      have lt : pushTo top val.length < virtualAddrEnd := by
        have some : 0 < val.length := List.length_pos_iff.mpr sized.1
        have room := pushTo_add_le (Nat.lt_of_lt_of_le (by decide) (Nat.le_trans high low))
        omega
      have cost : n + ((pushTo top val.length - bottom top (val :: vals)) + 2 * vals.length) +
          ((top - pushTo top val.length) / pageSize + 2) ≤
            n + ((top - bottom top (val :: vals)) + 2 * (val :: vals).length) := by
        simp only [List.length_cons, pageSize]
        omega
      refine (Achieves.bind (achieves_pushVal sized (Nat.le_trans high low) fits
        (mapped.within low (Nat.le_refl top))) ?_).less cost (Nat.le_refl n)
      rintro _ plan₁ ⟨⟨placed, rfl⟩, same⟩
      have rest := ih (n := n) (fun v mem => sizes v (List.mem_cons_of_mem _ mem)) high (Nat.le_of_lt lt)
        ((mapped.within (Nat.le_refl _) le).congr same)
      rw [Nat.mod_eq_of_lt lt] at rest
      refine Achieves.bind rest ?_
      rintro _ plan₂ ⟨⟨placed', rfl⟩, same'⟩
      exact .ret ⟨⟨_, rfl⟩, same'.trans same⟩

theorem achieves_mapRange {low top : Nat} (user : userMemStart ≤ low) (le : low ≤ top)
    (fits : top ≤ virtualAddrEnd) (closed : Closed plan) :
    Achieves d t z (n + 2 * ((top - low) / pageSize + 2)) n plan (mapRange d low (top - low))
      fun ok plan' => ok = true ∧ Mapped low top plan' := by
  have inUser : ∀ q, InRange low top q → UserPage q := by
    rintro _ ⟨w, above, below, rfl⟩
    exact userPage_of_high (Nat.le_trans user above) (by omega)
  rw [Nat.two_mul, ← Nat.add_assoc]
  refine Achieves.bind (achieves_changeAvailability fun q here => ?_) ?_
  · rw [visits_inRange le] at here
    exact ⟨inUser q here, _, closed q (inUser q here)⟩
  rintro _ _ ⟨rfl, rfl⟩
  rw [visits_inRange le]
  have opened : ∀ q, InRange low top q →
      (plan.walk openRule (InRange low top)).sight q = .unmapped .available := fun q here =>
    plan.walk_sight here (by rw [closed q (inUser q here)]; rfl)
  refine Achieves.conseq (achieves_mapAndClear false fun q here => ?_) fun ok plan' h => ?_
  · rw [visits_inRange le] at here
    rw [opened q here]
    exact ⟨inUser q here, rfl⟩
  · refine ⟨h.1, fun q here => ⟨inUser q here, ?_⟩⟩
    rw [h.2, visits_inRange le]
    exact Plan.walk_sight _ here (by rw [opened q here]; rfl)

/-- Without arguments only the words for `_main` are pushed. -/
theorem pushArguments_nil (d stackLow top : Nat) : pushArguments d stackLow top [] = (do
    match ← pushVals d top [word stackLow, word top, word 0, word 0, word 0] with
    | none => pure none
    | some (esps, placed) => pure (some (esps.getLast?.getD top, placed))) := by
  have none : pushVals d top [] = pure (some ([], [])) := by rw [pushVals]
  rw [pushArguments, List.map_nil, none, pure_bind]
  dsimp only
  rw [if_pos rfl, List.getLast?_nil, Option.getD_none, none, pure_bind]
  rfl

theorem achieves_pushArguments {stackLow top esp : Nat}
    (eq : esp = bottom top (argWords stackLow top [])) (high : userMemStart ≤ esp)
    (lt : top < virtualAddrEnd) (mapped : Mapped esp top plan) :
    Achieves d t z (n + (top - esp + 10)) n plan (pushArguments d stackLow top []) fun r plan' =>
      (∃ placed, r = some (esp, placed)) ∧ plan'.sight = plan.sight := by
  subst eq
  have sizes : ∀ val ∈ argWords stackLow top [], Sized val := sized_argWords
  have push := achieves_pushVals (n := n) (d := d) (t := t) (z := z) sizes high (Nat.le_of_lt lt)
    mapped
  have last : ((layout top (argWords stackLow top [])).map (·.1)).getLast?.getD top =
      bottom top (argWords stackLow top []) := getLast_layout (List.cons_ne_nil _ _) top
  have words : argWords stackLow top [] = [word stackLow, word top, word 0, word 0, word 0] := by
    rw [argWords, Nat.mod_eq_of_lt lt]
    rfl
  rw [Nat.mod_eq_of_lt lt] at push
  rw [pushArguments_nil, ← words]
  refine Achieves.bind push ?_
  rintro _ plan' ⟨⟨placed, rfl⟩, same⟩
  refine .ret ⟨⟨placed, ?_⟩, same⟩
  rw [last]

/-- The frames that are enough for such a stack, as the walks over it count. -/
def frames (low top stackLow esp : Nat) : Nat :=
  2 * ((top - low) / pageSize + 2) + (top - esp + 10) + ((esp - stackLow) / pageSize + 2)

/-- The memory of a guest without arguments, and its stack. -/
theorem achieves_wholeStack {low top size stackLow esp : Nat} (user : userMemStart ≤ low)
    (le : low ≤ stackLow) (eq : esp = bottom top (argWords stackLow top []))
    (room : stackLow ≤ esp) (below : esp ≤ top) (lt : top < virtualAddrEnd)
    (hsize : size = top - low) (closed : Closed plan) :
    Achieves d t z (n + frames low top stackLow esp) n plan (do
      if ← mapRange d low size then
        match ← pushArguments d stackLow top [] with
        | none => pure none
        | some (esp, placed) =>
            if ← mapAndClear d stackLow ((esp + virtualAddrEnd - stackLow) % virtualAddrEnd) true then
              pure (some placed)
            else pure none
      else pure none) fun r _ => r.isSome = true := by
  subst hsize
  have rest : (esp + virtualAddrEnd - stackLow) % virtualAddrEnd = esp - stackLow := by
    simp only [virtualAddrEnd] at *
    omega
  rw [frames, Nat.add_comm (2 * _), Nat.add_right_comm, Nat.add_comm _ (_ + 2), ← Nat.add_assoc,
    ← Nat.add_assoc]
  refine Achieves.bind (achieves_mapRange user (by omega) (Nat.le_of_lt lt) closed) ?_
  rintro _ plan₁ ⟨rfl, mapped⟩
  refine Achieves.bind (achieves_pushArguments eq (by omega) lt
    (mapped.within (by omega) (Nat.le_refl top))) ?_
  rintro _ plan₂ ⟨⟨placed, rfl⟩, same⟩
  dsimp only
  rw [rest]
  refine Achieves.bind (achieves_mapMapped room
    ((mapped.within le (by omega)).congr same) true) ?_
  rintro _ _ ⟨rfl, rfl⟩
  exact .ret rfl

/-- The frames that are enough for a guest. -/
def guestFrames : Nat :=
  frames userMemStart guestMemEnd (guestMemEnd - userStackLen * 4) (guestMemEnd - 20)

/-- A guest without arguments gets its memory and its stack. -/
theorem achieves_loadStack (closed : Closed plan) (n : Nat) :
    Achieves d t z (n + guestFrames) n plan (loadStack d true []) fun r _ =>
      r.isSome = true := by
  unfold loadStack prepareStack
  dsimp only
  simp only [if_true]
  exact achieves_wholeStack (by decide) (by decide) (by decide) (by decide) (by decide) (by decide)
    (by decide) closed

end

end OsKernel.Loader
