/-
The directory that `load_executable` fills, as a plan: how each user page can be seen from
outside, and the bytes of the pages that have frames of their own.

A step of the loader may fail for lack of memory, but one that succeeds does to the
directory what it does to the plan (`Fits`). A walk over a range of memory applies one rule
to every page it visits (`does_walk`): `change_availability`, `map_and_clear` and
`change_access` are three such walks. The zero frame is what it was, whatever that is.

Along the way the judgement `Fills` keeps that every store of the loader lies where it
should, and that no fault of the loader ends the thread.
-/

import OsKernel.Lib.Check
import OsKernel.Vm.Map
import OsKernel.Syscall.Image

namespace OsKernel.Loader

open OsKernel.Vm OsKernel.Memory OsKernel.Syscall Prog

structure Plan where
  sight : Nat → Sight
  byte : Nat → UInt8

/-- How a page in some state can be seen. -/
def sight (x : PageState) : Sight := x.info.sight

/-- The page has a frame of its own. -/
def Own (s : Sight) : Prop := ∃ rw, s = .otherFrame rw

def Plan.set (plan : Plan) (page : Nat) (s : Sight) : Plan :=
  { plan with sight := Function.update plan.sight page s }

def Plan.put (plan : Plan) (v : Nat) (b : UInt8) : Plan :=
  { plan with byte := Function.update plan.byte v b }

/-- The byte at an address, where `z` are the contents of the zero frame. -/
def Plan.shows (plan : Plan) (z : Nat → UInt8) (w : Nat) : UInt8 :=
  match plan.sight (pageOf w) with
  | .zeroFrame _ => z (w % pageSize)
  | _ => plan.byte w

/-- The directory is as planned. -/
structure Fits (d : Nat) (z : Nat → UInt8) (m : Mem) (plan : Plan) : Prop where
  wf : m.vm.abs.Wf
  zero : ∀ off < pageSize, m.phys (zeroFrame + off) = z off
  pages : ∀ q, UserPage q → (m.state d q).map sight = some (plan.sight q)
  bytes : ∀ w, UserAddr w → m.byteAt d w = plan.shows z w
  spare : ∀ w, UserAddr w → ¬ Own (plan.sight (pageOf w)) → plan.byte w = 0

/-! ### Pages -/

theorem sight_unmapped (avail : Availability) : sight (.unmapped avail) = .unmapped avail := by
  cases avail <;> rfl

theorem sight_zero {pte : Pte} (zero : pte.pageAddr * pageSize = zeroFrame) :
    sight (.mapped pte) = .zeroFrame pte.rw := by
  rw [sight, PageState.info, PageInfo.sight, if_pos zero]

theorem sight_own {pte : Pte} (other : pte.pageAddr * pageSize ≠ zeroFrame) :
    sight (.mapped pte) = .otherFrame pte.rw := by
  rw [sight, PageState.info, PageInfo.sight, if_neg other]

/-- The states that look the same. -/
theorem sight_cases (x : PageState) : (∃ avail, x = .unmapped avail ∧ sight x = .unmapped avail) ∨
    (∃ pte, x = .mapped pte ∧ pte.pageAddr * pageSize = zeroFrame ∧ sight x = .zeroFrame pte.rw) ∨
    ∃ pte, x = .mapped pte ∧ pte.pageAddr * pageSize ≠ zeroFrame ∧
      sight x = .otherFrame pte.rw := by
  cases x with
  | unmapped avail => exact .inl ⟨avail, rfl, sight_unmapped avail⟩
  | mapped pte =>
      by_cases zero : pte.pageAddr * pageSize = zeroFrame
      · exact .inr (.inl ⟨pte, rfl, zero, sight_zero zero⟩)
      · exact .inr (.inr ⟨pte, rfl, zero, sight_own zero⟩)

section
variable {d page : Nat} {z : Nat → UInt8} {m m' : Mem} {plan : Plan}

theorem Fits.state (h : Fits d z m plan) {q : Nat} (user : UserPage q) :
    ∃ x, m.state d q = some x ∧ sight x = plan.sight q :=
  Option.map_eq_some_iff.mp (h.pages q user)

theorem Fits.own (h : Fits d z m plan) {q : Nat} (user : UserPage q) (own : Own (plan.sight q)) :
    ∃ pte, m.state d q = some (.mapped pte) ∧ pte.pageAddr * pageSize ≠ zeroFrame ∧
      plan.sight q = .otherFrame pte.rw := by
  obtain ⟨x, here, seen⟩ := h.state user
  obtain ⟨bit, own⟩ := own
  rcases sight_cases x with ⟨avail, -, look⟩ | ⟨pte, -, -, look⟩ | ⟨pte, rfl, other, look⟩
  · rw [look, own] at seen
    cases seen
  · rw [look, own] at seen
    cases seen
  · exact ⟨pte, here, other, seen ▸ look⟩

theorem Fits.live (h : Fits d z m plan) : (m.vm.abs.space d).isSome = true := by
  obtain ⟨x, here, -⟩ := h.state (q := kernelPageCount) (by decide)
  obtain ⟨space, hd, -⟩ := Option.map_eq_some_iff.mp here
  rw [hd]
  rfl

/-- The sights after one page was put into a new state. -/
theorem Fits.pages_put (h : Fits d z m plan) {x : PageState} (put : Put True d page x m m')
    {q : Nat} (user : UserPage q) :
    (m'.state d q).map sight = some ((plan.set page (sight x)).sight q) := by
  rw [Plan.set]
  dsimp only
  by_cases same : q = page
  · rw [same, put.now, Function.update_self]
    rfl
  · rw [put.rest q same, Function.update_of_ne same]
    exact h.pages q user

theorem shows_set_of_ne (plan : Plan) (z : Nat → UInt8) (s : Sight) {w : Nat}
    (ne : pageOf w ≠ page) : (plan.set page s).shows z w = plan.shows z w := by
  simp only [Plan.shows, Plan.set, Function.update_of_ne ne]

/-- Another page shows the bytes it did. -/
theorem Fits.byteAt_put (h : Fits d z m plan) {x : PageState} (put : Put True d page x m m')
    {w : Nat} (user : UserAddr w) (ne : pageOf w ≠ page) :
    m'.byteAt d w = (plan.set page (sight x)).shows z w := by
  obtain ⟨y, here, -⟩ := h.state user.page
  rw [shows_set_of_ne plan z _ ne, ← h.bytes w user, byteAt_of_state ((put.rest _ ne).trans here),
    byteAt_of_state here, put.phys]

theorem Fits.spare_put (h : Fits d z m plan) {s : Sight}
    (own : Own (plan.sight page) → Own s) {w : Nat} (user : UserAddr w)
    (none : ¬ Own ((plan.set page s).sight (pageOf w))) : plan.byte w = 0 := by
  refine h.spare w user fun was => none ?_
  rw [Plan.set]
  dsimp only
  by_cases same : pageOf w = page
  · rw [same, Function.update_self]
    exact own (same ▸ was)
  · rw [Function.update_of_ne same]
    exact was

/-- A page without a frame of its own, put into another such state. -/
theorem Fits.put (h : Fits d z m plan) {x : PageState} (put : Put True d page x m m')
    (before : ¬ Own (plan.sight page)) (after : ¬ Own (sight x)) :
    Fits d z m' (plan.set page (sight x)) := by
  refine ⟨put.apart.wf, fun off hoff => by rw [put.phys, h.zero off hoff],
    fun q user => h.pages_put put user, fun w user => ?_,
    fun w user none => h.spare_put (fun own => absurd own before) user none⟩
  by_cases same : pageOf w = page
  swap
  · exact h.byteAt_put put user same
  subst same
  rw [byteAt_of_state put.now, put.phys, Plan.shows, Plan.set]
  dsimp only
  rw [Function.update_self]
  rcases sight_cases x with ⟨avail, rfl, look⟩ | ⟨pte, rfl, zero, look⟩ | ⟨pte, -, -, look⟩
  · rw [look]
    exact (h.spare w user before).symm
  · rw [look, byteOf, zero]
    exact h.zero _ (off_lt w)
  · exact absurd ⟨_, look⟩ after

/-- The read/write bit of a page that is mapped. -/
theorem Fits.access (h : Fits d z m plan) {pte : Pte} {bit : Access} (user : UserPage page)
    (here : m.state d page = some (.mapped pte))
    (put : Put True d page (.mapped { pte with rw := bit }) m m') :
    Fits d z m' (plan.set page (sight (.mapped { pte with rw := bit }))) := by
  have look : plan.sight page = sight (.mapped pte) := by
    obtain ⟨x, here', seen⟩ := h.state user
    rw [here, Option.some.injEq] at here'
    rw [← seen, here']
  by_cases zero : pte.pageAddr * pageSize = zeroFrame
  · refine h.put put ?_ ?_
    · rw [look, sight_zero zero]
      rintro ⟨_, h⟩
      cases h
    · have look' : sight (.mapped { pte with rw := bit }) = .zeroFrame bit := sight_zero zero
      rw [look']
      rintro ⟨_, h⟩
      cases h
  have now : sight (.mapped { pte with rw := bit }) = .otherFrame bit := sight_own zero
  refine ⟨put.apart.wf, fun off hoff => by rw [put.phys, h.zero off hoff],
    fun q user => h.pages_put put user, fun w addr => ?_,
    fun w addr none => h.spare_put (fun _ => ⟨bit, now⟩) addr none⟩
  by_cases same : pageOf w = page
  swap
  · exact h.byteAt_put put addr same
  subst same
  have old := h.bytes w addr
  rw [byteAt_of_state here, Plan.shows, look, sight_own zero] at old
  rw [byteAt_of_state put.now, put.phys, Plan.shows, Plan.set]
  dsimp only
  rw [Function.update_self, now]
  exact old

/-- Two pages of one directory have different frames, unless it is the zero frame. -/
theorem Fits.apart (h : Fits d z m plan) {q r : Nat} {pte : Pte} {x : PageState}
    (userq : UserPage q) (userr : UserPage r) (hq : m.state d q = some (.mapped pte))
    (hr : m.state d r = some x) (other : pte.pageAddr * pageSize ≠ zeroFrame) (ne : r ≠ q) :
    x.frame? ≠ some (pte.pageAddr * pageSize) := by
  intro frame
  obtain ⟨space, hd, hs⟩ := Option.map_eq_some_iff.mp hq
  rw [state_of_space hd, Option.some.injEq] at hr
  have maps : m.vm.abs.Maps d r (pte.pageAddr * pageSize) := ⟨userr, space, hd, by rw [hr, frame]⟩
  exact ne (h.wf.injective _ _ _ _ _ maps (maps_of_state hd userq hs) other).2

/-- The frame of a page filled with bytes. -/
theorem Fits.fill (h : Fits d z m plan) {pte : Pte} (user : UserPage page)
    (here : m.state d page = some (.mapped pte)) (other : pte.pageAddr * pageSize ≠ zeroFrame)
    {bytes : Nat → UInt8} {byte : Nat → UInt8}
    (inside : ∀ w, UserAddr w → pageOf w = page → byte w = bytes (w % pageSize))
    (outside : ∀ w, UserAddr w → pageOf w ≠ page → byte w = plan.byte w) :
    Fits d z (m.fill (pte.pageAddr * pageSize) bytes) { plan with byte := byte } := by
  have state : (m.fill (pte.pageAddr * pageSize) bytes).state d = m.state d := rfl
  refine ⟨h.wf, fun off hoff => ?_, h.pages, fun w user' => ?_, fun w user' none => ?_⟩
  · rw [zeroFrame_fill other hoff, h.zero off hoff]
  · obtain ⟨x, hx, seen⟩ := h.state user'.page
    rw [byteAt_of_state (m := m.fill _ _) hx, byteOf_fill m _ _ (off_lt w)]
    by_cases same : pageOf w = page
    · subst same
      rw [here, Option.some.injEq] at hx
      subst hx
      have frame : (PageState.mapped pte).frame? = some (pte.pageAddr * pageSize) := rfl
      rw [if_pos frame, Plan.shows, ← seen, sight_own other]
      exact (inside w user' rfl).symm
    · rw [if_neg (h.apart user user'.page here hx other same), ← byteAt_of_state hx, h.bytes w user',
        Plan.shows, Plan.shows]
      dsimp only
      rw [outside w user' same]
  · by_cases same : pageOf w = page
    · subst same
      obtain ⟨x, hx, seen⟩ := h.state user
      rw [here, Option.some.injEq] at hx
      subst hx
      refine absurd ⟨pte.rw, ?_⟩ none
      dsimp only
      rw [← seen, sight_own other]
    · exact (outside w user' same).trans (h.spare w user' none)

/-- A page that was not mapped was given a frame, which was cleared. -/
theorem Fits.cleared (h : Fits d z m plan) (user : UserPage page)
    (before : ¬ Own (plan.sight page)) (cleared : Cleared d page m m') :
    Fits d z m' (plan.set page (.otherFrame .readWrite)) := by
  obtain ⟨pte, m₁, put, -, rw, other, rfl⟩ := cleared
  have look : sight (.mapped pte) = .otherFrame .readWrite := rw ▸ sight_own other
  -- before it is cleared the page shows what the frame held
  let held : Plan := { plan.set page (.otherFrame .readWrite) with
    byte := fun w => if pageOf w = page then m₁.byteAt d w else plan.byte w }
  have mid : Fits d z m₁ held := by
    refine ⟨put.apart.wf, fun off hoff => by rw [put.phys, h.zero off hoff], fun q user => ?_,
      fun w addr => ?_, fun w addr none => ?_⟩
    · have seen := h.pages_put put user
      rw [look] at seen
      exact seen
    · by_cases same : pageOf w = page
      · simp only [Plan.shows, held, Plan.set, same, Function.update_self, ↓reduceIte]
      · rw [h.byteAt_put put addr same, look]
        simp only [Plan.shows, held, if_neg same]
        rfl
    · by_cases same : pageOf w = page
      · refine absurd ⟨.readWrite, ?_⟩ none
        simp only [held, Plan.set, same, Function.update_self]
      · simp only [held, if_neg same]
        exact h.spare_put (fun own => absurd own before) addr none
  refine mid.fill user put.now other (fun w addr same => ?_) fun w addr ne => ?_
  · exact h.spare w addr (same ▸ before)
  · simp only [held, if_neg ne]

/-- A store in kernel mode to a page with a frame of its own. -/
theorem Fits.kstore (h : Fits d z m plan) {v : Nat} (addr : UserAddr v)
    (own : Own (plan.sight (pageOf v))) (b : UInt8) :
    ∃ m', m.kstore d v b = some m' ∧ m'.vm = m.vm ∧ Fits d z m' (plan.put v b) := by
  obtain ⟨pte, here, other, look⟩ := h.own addr.page own
  obtain ⟨space, hd, state⟩ := Option.map_eq_some_iff.mp here
  obtain ⟨pd, dir, rfl⟩ := Option.map_eq_some_iff.mp hd
  refine ⟨m.put (pte.pageAddr * pageSize + v % pageSize) b, ?_, rfl, ?_⟩
  · simp only [Mem.kstore, dir, Option.bind_some, ktranslate, frameOf, state, PageState.frame?,
      Option.map_some]
  rw [put_eq_fill m _ (off_lt v)]
  refine h.fill addr.page here other (fun w waddr same => ?_) fun w waddr ne => ?_
  · have old := h.bytes w waddr
    rw [byteAt_of_state (same ▸ here), Plan.shows, same, look] at old
    by_cases eq : w = v
    · rw [eq, Function.update_self, if_pos rfl]
    · rw [Function.update_of_ne eq, if_neg fun off => eq (vAddr_eq_of_page waddr.lt addr.lt same off)]
      exact old.symm
  · exact Function.update_of_ne (fun eq => ne (by rw [eq])) _ _

end

/-! ### Programs of the loader -/

/-- The action is one on memory, and every byte that it writes lies where `P` says. -/
def Writes (P : Nat → Prop) : Act → Kernel → Prop
  | .place _ v _, _ => P (v % virtualAddrEnd)
  | .clearPage _ v, _ => ∀ w, pageOf w = pageOf v → w < virtualAddrEnd → P w
  | .store .., _ | .copyOut .., _ | .copyPage .., _ => False
  | a, _ => OnMemory a

/-- The program of thread `t`, from every state in which directory `d` is as planned,
makes its stores where `P` says and ends with `Q`. -/
def Fills (d t : Nat) (z : Nat → UInt8) (P : Nat → Prop) {α : Type} (plan : Plan)
    (p : Program α) (Q : α → Plan → Prop) : Prop :=
  Does (Kernel.exec t) (Kernel.alive t) (Writes P) (fun s => Fits d z s.mem plan) p
    fun x s => ∃ plan', Fits d z s.mem plan' ∧ Q x plan'

section
variable {d t : Nat} {z : Nat → UInt8} {P : Nat → Prop} {α β : Type} {plan : Plan}

theorem Fills.ret {x : α} {Q : α → Plan → Prop} (h : Q x plan) :
    Fills d t z P plan (pure x) Q :=
  Does.ret fun _ fits => ⟨plan, fits, h⟩

theorem Fills.conseq {p : Program α} {Q Q' : α → Plan → Prop} (h : Fills d t z P plan p Q)
    (post : ∀ x plan', Q x plan' → Q' x plan') : Fills d t z P plan p Q' :=
  Does.conseq h (fun _ fits => fits) fun x _ ⟨plan', fits, q⟩ => ⟨plan', fits, post x plan' q⟩

theorem Fills.bind {p : Program α} {f : α → Program β} {Q : α → Plan → Prop}
    {Q' : β → Plan → Prop} (first : Fills d t z P plan p Q)
    (next : ∀ x plan', Q x plan' → Fills d t z P plan' (f x) Q') :
    Fills d t z P plan (p >>= f) Q' := by
  refine Does.bind first fun x => ?_
  rintro s ⟨plan', fits, q⟩
  exact next x plan' q s fits

/-- One action. -/
theorem Fills.act {a : Act} {Q : a.Result → Plan → Prop}
    (writes : ∀ s, Writes P a s)
    (does : ∀ s, Fits d z s.mem plan → ∃ plan', Fits d z (Kernel.exec t a s).1.mem plan' ∧
      Q (Kernel.exec t a s).2 plan') : Fills d t z P plan (Memory.act a) Q :=
  Does.perform (fun s _ => writes s) fun s fits _ => does s fits

end

/-! ### Walks over pages -/

/-- What `set_availability` does to a page, where it succeeds. -/
def openRule : Sight → Option Sight
  | .unmapped _ => some (.unmapped .available)
  | _ => none

/-- What `map_and_clear` does to a page. -/
def mapRule (zeroFrame : Bool) : Sight → Option Sight
  | .unmapped .available => some (if zeroFrame then .zeroFrame .readOnly else .otherFrame .readWrite)
  | .unmapped .unavailable => none
  | s => some s

/-- What `set_access` does to a page. -/
def accessRule (bit : Access) : Sight → Option Sight
  | .unmapped _ => none
  | .zeroFrame _ => some (.zeroFrame bit)
  | .otherFrame _ => some (.otherFrame bit)

/-- A page that the rule was applied to is not changed by it again. -/
def Settles (f : Sight → Option Sight) : Prop := ∀ s s', f s = some s' → f s' = some s'

theorem settles_open : Settles openRule := by
  rintro (avail | bit | bit) s' h
  · cases h
    rfl
  · cases h
  · cases h

theorem settles_map (zeroFrame : Bool) : Settles (mapRule zeroFrame) := by
  rintro ((- | -) | bit | bit) s' h <;> cases h
  · cases zeroFrame <;> rfl
  · rfl
  · rfl

theorem settles_access (bit : Access) : Settles (accessRule bit) := by
  rintro (avail | old | old) s' h <;> cases h <;> rfl

open Classical in
/-- The rule applied to some pages. -/
noncomputable def Plan.walk (plan : Plan) (f : Sight → Option Sight) (T : Nat → Prop) : Plan :=
  { plan with sight := fun q => if T q then (f (plan.sight q)).getD (plan.sight q) else plan.sight q }

theorem Plan.walk_none (plan : Plan) (f : Sight → Option Sight) {T : Nat → Prop}
    (none : ∀ q, ¬ T q) : plan.walk f T = plan := by
  simp only [walk, none, ↓reduceIte]

theorem Plan.walk_sight (plan : Plan) {f : Sight → Option Sight} {T : Nat → Prop} {q : Nat}
    {s : Sight} (here : T q) (rule : f (plan.sight q) = some s) : (plan.walk f T).sight q = s := by
  simp only [walk, if_pos here, rule, Option.getD_some]

theorem Plan.walk_sight_off (plan : Plan) (f : Sight → Option Sight) {T : Nat → Prop} {q : Nat}
    (off : ¬ T q) : (plan.walk f T).sight q = plan.sight q := by
  simp only [walk, if_neg off]

/-- A rule applied to one page and then to others. -/
theorem Plan.walk_set (plan : Plan) {f : Sight → Option Sight} (settles : Settles f) {page : Nat}
    {s : Sight} (rule : f (plan.sight page) = some s) (T : Nat → Prop) :
    (plan.set page s).walk f T = plan.walk f fun q => q = page ∨ T q := by
  have again := settles _ _ rule
  simp only [walk, set, Plan.mk.injEq, and_true]
  funext q
  by_cases same : q = page
  · subst same
    simp only [Function.update_self, true_or, ↓reduceIte, rule, again, Option.getD_some, ite_self]
  · rw [Function.update_of_ne same]
    by_cases more : T q <;> simp [same, more]

section
variable {d t : Nat} {z : Nat → UInt8} {P : Nat → Prop} {plan : Plan}

/-- The program does to the page of `v` what the rule says, or fails, from a plan with `C`. -/
def Applies (d t : Nat) (z : Nat → UInt8) (P : Nat → Prop) (C : Plan → Prop)
    (f : Sight → Option Sight) (op : Nat → Program Bool) (v : Nat) : Prop :=
  ∀ plan, C plan → Fills d t z P plan (op v) fun ok plan' => ok = true → UserPage (pageOf v) ∧
    ∃ s, f (plan.sight (pageOf v)) = some s ∧ plan' = plan.set (pageOf v) s

theorem visits_cons {v q : Nat} {vs : List Nat} :
    Visits (v :: vs) q ↔ q = pageOf v ∨ Visits vs q := by
  constructor
  · rintro ⟨u, mem, rfl⟩
    rcases List.mem_cons.mp mem with rfl | mem
    · exact .inl rfl
    · exact .inr ⟨u, mem, rfl⟩
  · rintro (rfl | ⟨u, mem, rfl⟩)
    · exact ⟨v, List.mem_cons_self, rfl⟩
    · exact ⟨u, List.mem_cons_of_mem v mem, rfl⟩

theorem walk_cons (plan : Plan) {f : Sight → Option Sight} (settles : Settles f) {v : Nat}
    {s : Sight} (rule : f (plan.sight (pageOf v)) = some s) (vs : List Nat) :
    (plan.set (pageOf v) s).walk f (Visits vs) = plan.walk f (Visits (v :: vs)) :=
  (plan.walk_set settles rule _).trans
    (congrArg (plan.walk f) (funext fun _ => propext visits_cons.symm))

theorem fills_walk {C : Plan → Prop} {f : Sight → Option Sight} (settles : Settles f)
    (keeps : ∀ plan q s, C plan → f (plan.sight q) = some s → C (plan.set q s))
    {op : Nat → Program Bool} {vs : List Nat} (each : ∀ v ∈ vs, Applies d t z P C f op v)
    (start : C plan) :
    Fills d t z P plan (forAll op vs) fun ok plan' => ok = true →
      (∀ q, Visits vs q → UserPage q ∧ (f (plan.sight q)).isSome = true) ∧
        plan' = plan.walk f (Visits vs) := by
  induction vs generalizing plan with
  | nil =>
      have none : ∀ q, ¬ Visits [] q := by
        rintro q ⟨v, mem, -⟩
        cases mem
      exact .ret fun _ => ⟨fun q visits => absurd visits (none q), (plan.walk_none f none).symm⟩
  | cons v vs ih =>
      refine Fills.bind (each v List.mem_cons_self plan start) fun ok plan₁ first => ?_
      cases ok with
      | false => exact .ret fun h => by cases h
      | true =>
          obtain ⟨user, s, rule, rfl⟩ := first rfl
          have rest := ih (fun u mem => each u (List.mem_cons_of_mem v mem))
            (keeps plan _ s start rule)
          refine Fills.conseq rest fun ok plan₂ h go => ?_
          obtain ⟨visited, rfl⟩ := h go
          refine ⟨fun q here => ?_, ?_⟩
          · by_cases same : q = pageOf v
            · rw [same, rule]
              exact ⟨user, rfl⟩
            · obtain ⟨user', some⟩ := visited q ((visits_cons.mp here).resolve_left same)
              rw [Plan.set] at some
              dsimp only at some
              rw [Function.update_of_ne same] at some
              exact ⟨user', some⟩
          · exact walk_cons plan settles rule vs

end

/-! ### The three walks -/

section
variable {d t : Nat} {z : Nat → UInt8} {P : Nat → Prop} {m m' : Mem} {plan : Plan}

theorem Fits.same (h : Fits d z m plan) (same : Same d m m') : Fits d z m' plan := by
  refine ⟨same.within.wf, fun off hoff => by rw [same.phys, h.zero off hoff], fun q user => ?_,
    fun w addr => ?_, h.spare⟩
  · rw [same.state q]
    exact h.pages q user
  · obtain ⟨x, here, -⟩ := h.state addr.page
    rw [← h.bytes w addr, byteAt_of_state ((same.state _).trans here), byteAt_of_state here, same.phys]

theorem Fits.sight_of (h : Fits d z m plan) {q : Nat} {x : PageState} (user : UserPage q)
    (here : m.state d q = some x) : plan.sight q = sight x := by
  obtain ⟨y, here', seen⟩ := h.state user
  rw [here, Option.some.injEq] at here'
  rw [← seen, here']

theorem not_own_unmapped {s : Sight} {avail : Availability} (h : s = .unmapped avail) : ¬ Own s := by
  rintro ⟨bit, own⟩
  rw [h] at own
  cases own

theorem not_own_zero {s : Sight} {bit : Access} (h : s = .zeroFrame bit) : ¬ Own s := by
  rintro ⟨bit', own⟩
  rw [h] at own
  cases own

theorem applies_open (v : Nat) :
    Applies d t z P (fun _ => True) openRule (fun v => Memory.act (.setAvailability d v 1)) v := by
  refine fun plan _ => Fills.act (fun _ => trivial) fun s fits => ?_
  obtain ⟨-, mem, result⟩ := exec_setAvailability t s d v 1
  rw [mem, result]
  rcases setAvailability_put fits.wf v 1 with ⟨fails, same⟩ |
    ⟨old, avail, works, user, here, bits, put⟩
  · rw [fails]
    exact ⟨plan, fits.same same, fun h => by cases h⟩
  · cases bits
    have look := (fits.sight_of user here).trans (sight_unmapped old)
    refine ⟨_, fits.put put (not_own_unmapped look) (not_own_unmapped (sight_unmapped _)),
      fun _ => ⟨user, _, ?_, rfl⟩⟩
    rw [look]
    rfl

theorem applies_access (bit : Access) (v : Nat) :
    Applies d t z P (fun _ => True) (accessRule bit)
      (fun v => Memory.act (.setAccess d v bit.toNat)) v := by
  refine fun plan _ => Fills.act (fun _ => trivial) fun s fits => ?_
  change ∃ plan', Fits d z (s.mem.withVm (setAccess s.mem.vm d v bit.toNat).2) plan' ∧
    ((setAccess s.mem.vm d v bit.toNat).1 = true → _)
  rcases setAccess_put fits.wf v bit.toNat with ⟨fails, same⟩ |
    ⟨pte, bit', works, user, here, bits, put⟩
  · rw [fails]
    exact ⟨plan, fits.same same, fun h => by cases h⟩
  · have eq : bit' = bit := by cases bit <;> cases bits <;> rfl
    subst eq
    refine ⟨_, fits.access user here put, fun _ => ⟨user, _, ?_, rfl⟩⟩
    rw [fits.sight_of user here]
    by_cases zero : pte.pageAddr * pageSize = zeroFrame
    · have now : sight (.mapped { pte with rw := bit' }) = .zeroFrame bit' := sight_zero zero
      rw [sight_zero zero, now]
      rfl
    · have now : sight (.mapped { pte with rw := bit' }) = .otherFrame bit' := sight_own zero
      rw [sight_own zero, now]
      rfl

/-- What `check_user_page` tells of a planned page. -/
def Told (plan : Plan) (page : Nat) : Option MappingInfo → Prop
  | none => True
  | some .pdeNotPresent | some .pteNotPresent =>
      UserPage page ∧ ∃ avail, plan.sight page = .unmapped avail
  | some .zeroFrameMapped => UserPage page ∧ ∃ bit, plan.sight page = .zeroFrame bit
  | some .newFrameMapped => UserPage page ∧ Own (plan.sight page)

theorem Fits.told (h : Fits d z m plan) (v : Nat) :
    Told plan (pageOf v) (checkUserPage m.vm d v) := by
  obtain ⟨space, hd⟩ := Option.isSome_iff_exists.mp h.live
  by_cases user : UserPage (pageOf v)
  swap
  · cases seen : checkUserPage m.vm d v with
    | none => trivial
    | some info => exact absurd (checkUserPage_user seen) user
  have look := h.sight_of user (state_of_space hd (pageOf v))
  rcases checkUserPage_cases hd user with ⟨avail, seen, all⟩ | ⟨avail, seen, here⟩ |
    ⟨pte, seen, here, zero⟩ | ⟨pte, seen, here, other⟩ <;> rw [seen]
  · exact ⟨user, avail, by rw [look, all _ rfl, sight_unmapped]⟩
  · exact ⟨user, avail, by rw [look, here, sight_unmapped]⟩
  · exact ⟨user, pte.rw, by rw [look, here, sight_zero zero]⟩
  · exact ⟨user, pte.rw, by rw [look, here, sight_own other]⟩

theorem fills_checkUserPage (v : Nat) : Fills d t z P plan (Memory.act (.checkUserPage d v))
    fun r plan' => plan' = plan ∧ Told plan (pageOf v) r :=
  Fills.act (fun _ => trivial) fun _ fits => ⟨plan, fits, rfl, fits.told v⟩

theorem fills_getAvailability (v : Nat) : Fills d t z P plan (Memory.act (.getAvailability d v))
    fun r plan' => plan' = plan ∧ ∀ avail, r = some avail →
      UserPage (pageOf v) ∧ plan.sight (pageOf v) = .unmapped avail := by
  refine Fills.act (fun _ => trivial) fun s fits => ⟨plan, fits, rfl, fun avail answer => ?_⟩
  obtain ⟨space, hd, user, here⟩ := getAvailability_eq.mp answer
  exact ⟨user, by rw [fits.sight_of user (state_of_space hd _), here, sight_unmapped]⟩

theorem fills_mapZeroFrame {v : Nat} {avail : Availability}
    (unmapped : plan.sight (pageOf v) = .unmapped avail) :
    Fills d t z P plan (Memory.act (.mapZeroFrame d v)) fun ok plan' => ok = true →
      plan' = plan.set (pageOf v) (.zeroFrame .readOnly) := by
  refine Fills.act (fun _ => trivial) fun s fits => ?_
  change ∃ plan', Fits d z (s.mem.withVm (mapZeroFrame s.mem.vm d v).2) plan' ∧
    ((mapZeroFrame s.mem.vm d v).1 = true → _)
  rcases mapZeroFrame_put fits.wf v with ⟨fails, same⟩ | ⟨old, works, user, here, put⟩
  · rw [fails]
    exact ⟨plan, fits.same same, fun h => by cases h⟩
  · have look : sight (.mapped zeroFramePte) = .zeroFrame .readOnly := sight_zero rfl
    have fits' := fits.put put (not_own_unmapped unmapped) (not_own_zero look)
    exact ⟨_, fits', fun _ => by rw [look]⟩

/-- `map_new_frame` and `memset`. -/
theorem fills_mapAndClearNew {v : Nat} {avail : Availability} (user : UserPage (pageOf v))
    (unmapped : plan.sight (pageOf v) = .unmapped avail)
    (inside : ∀ w, pageOf w = pageOf v → w < virtualAddrEnd → P w) :
    Fills d t z P plan (mapAndClearNew d v) fun ok plan' => ok = true →
      plan' = plan.set (pageOf v) (.otherFrame .readWrite) := by
  have own := not_own_unmapped unmapped
  -- the frame is there and is not cleared yet
  refine Does.bind (Q := fun ok s => bif ok then ∃ m₀ pte, Fits d z m₀ plan ∧
      Put True d (pageOf v) (.mapped pte) m₀ s.mem ∧ pte.us = true ∧ pte.rw = .readWrite ∧
      pte.pageAddr * pageSize ≠ zeroFrame else Fits d z s.mem plan)
    (Does.perform (fun _ _ => trivial) fun s fits _ => ?_) fun ok => ?_
  · change bif (mapNewFrame s.mem.vm d v).1 then ∃ m₀ pte, Fits d z m₀ plan ∧
      Put True d (pageOf v) (.mapped pte) m₀ (s.mem.withVm (mapNewFrame s.mem.vm d v).2) ∧ _ else
      Fits d z (s.mem.withVm (mapNewFrame s.mem.vm d v).2) plan
    rcases mapNewFrame_put fits.wf v with ⟨fails, same⟩ |
      ⟨_, pte, works, -, -, us, rw, -, other, put⟩
    · rw [fails]
      exact fits.same same
    · rw [works]
      exact ⟨s.mem, pte, fits, put, us, rw, other⟩
  cases ok with
  | false => exact Does.ret fun s fits => ⟨plan, fits, fun h => by cases h⟩
  | true =>
      refine Does.bind (Q := fun _ s => Fits d z s.mem (plan.set (pageOf v) (.otherFrame .readWrite)))
        (Does.perform (fun _ _ => inside) fun s h _ => ?_) fun _ =>
          Does.ret fun s fits => ⟨_, fits, fun _ => rfl⟩
      obtain ⟨m₀, pte, fits, put, us, rw, other⟩ := h
      refine fits.cleared user own ⟨pte, s.mem, put, us, rw, other, ?_⟩
      have frame : s.mem.frameAt d v = some (pte.pageAddr * pageSize) := by
        rw [frameAt_eq, put.now]
        rfl
      simp only [Kernel.exec, Mem.clearPage, frame]

/-- Every page that is still available may be written. -/
def Roomy (P : Nat → Prop) (plan : Plan) : Prop :=
  ∀ w, UserAddr w → plan.sight (pageOf w) = .unmapped .available → P w

/-- A walk of `map_and_clear` makes no page available. -/
theorem Roomy.set {zeroFrame : Bool} {page : Nat} {s : Sight} (h : Roomy P plan)
    (rule : mapRule zeroFrame (plan.sight page) = some s) : Roomy P (plan.set page s) := by
  intro w hw avail
  rw [Plan.set] at avail
  dsimp only at avail
  by_cases same : pageOf w = page
  · rw [same, Function.update_self] at avail
    subst avail
    rcases look : plan.sight page with (- | -) | bit | bit <;> rw [look] at rule
    · cases rule
    · cases zeroFrame <;> cases rule
    · cases rule
    · cases rule
  · rw [Function.update_of_ne same] at avail
    exact h w hw avail

theorem applies_map (zeroFrame : Bool) (v : Nat) :
    Applies d t z P (fun plan => zeroFrame = false → Roomy P plan) (mapRule zeroFrame)
      (mapAndClearPage d zeroFrame) v := by
  intro plan inside
  -- the page is mapped already
  have skip : ∀ s, plan.sight (pageOf v) = s → plan = plan.set (pageOf v) s := by
    rintro s rfl
    rw [Plan.set, Function.update_eq_self]
  refine Fills.bind (fills_checkUserPage v) ?_
  rintro r _ ⟨rfl, told⟩
  rcases r with - | info
  · exact .ret fun h => by cases h
  cases info with
  | pdeNotPresent | pteNotPresent =>
      -- the page is available and gets a frame, or it is not
      refine Fills.bind (fills_getAvailability v) ?_
      rintro r _ ⟨rfl, answer⟩
      rcases r with - | - | -
      · exact .ret fun h => by cases h
      · exact .ret fun h => by cases h
      obtain ⟨user, unmapped⟩ := answer _ rfl
      cases zeroFrame with
      | true =>
          refine Fills.conseq (fills_mapZeroFrame unmapped) fun ok plan' h go => ⟨user, _, ?_, h go⟩
          rw [unmapped]
          rfl
      | false =>
          refine Fills.conseq (fills_mapAndClearNew user unmapped
            fun w same hw => inside rfl w ⟨hw, same ▸ user⟩ (same ▸ unmapped))
            fun ok plan' h go => ⟨user, _, ?_, h go⟩
          rw [unmapped]
          rfl
  | zeroFrameMapped =>
      obtain ⟨user, bit, look⟩ := told
      exact .ret fun _ => ⟨user, .zeroFrame bit, by rw [look]; rfl, skip _ look⟩
  | newFrameMapped =>
      obtain ⟨user, bit, look⟩ := told
      exact .ret fun _ => ⟨user, .otherFrame bit, by rw [look]; rfl, skip _ look⟩

theorem fills_changeAccess (addr size : Nat) (bit : Access) :
    Fills d t z P plan (changeAccess d addr size bit.toNat) fun ok plan' => ok = true →
      plan' = plan.walk (accessRule bit) (Visits (pagesOf addr size)) :=
  Fills.conseq (fills_walk (settles_access bit) (fun _ _ _ _ _ => trivial)
    (fun v _ => applies_access bit v) trivial) fun _ _ h go => (h go).2

theorem fills_mapAndClear {addr size : Nat} (zeroFrame : Bool)
    (inside : zeroFrame = false → Roomy P plan) :
    Fills d t z P plan (mapAndClear d addr size zeroFrame) fun ok plan' => ok = true →
      (∀ q, Visits (pagesOf addr size) q → UserPage q ∧
        (mapRule zeroFrame (plan.sight q)).isSome = true) ∧
        plan' = plan.walk (mapRule zeroFrame) (Visits (pagesOf addr size)) :=
  fills_walk (settles_map zeroFrame) (fun _ _ _ h rule new => (h new).set rule)
    (fun v _ => applies_map zeroFrame v) inside

/-- What `openRule` asks of a page. -/
theorem unmapped_of_openRule {s : Sight} (h : (openRule s).isSome = true) :
    ∃ avail, s = .unmapped avail := by
  rcases s with avail | bit | bit
  · exact ⟨avail, rfl⟩
  · cases h
  · cases h

theorem fills_opened (vs : List Nat) :
    Fills d t z P plan (forAll (fun v => Memory.act (.setAvailability d v 1)) vs)
      fun ok plan' => ok = true →
        (∀ q, Visits vs q → UserPage q ∧ ∃ avail, plan.sight q = .unmapped avail) ∧
          plan' = plan.walk openRule (Visits vs) := by
  refine Fills.conseq (fills_walk settles_open (fun _ _ _ _ _ => trivial)
    (fun v _ => applies_open v) trivial) fun ok plan' h go => ?_
  obtain ⟨visited, rfl⟩ := h go
  exact ⟨fun q hq => ⟨(visited q hq).1, unmapped_of_openRule (visited q hq).2⟩, rfl⟩

/-- A page that `map_and_clear` can leave with a frame of its own. -/
def Ready (s : Sight) : Prop := s = .unmapped .available ∨ s = .otherFrame .readWrite

theorem mapRule_ready {s : Sight} (h : Ready s) : mapRule false s = some (.otherFrame .readWrite) := by
  rcases h with rfl | rfl <;> rfl

/-! ### Bytes -/

def Plan.puts (plan : Plan) (placed : Placed) : Plan :=
  { plan with byte := placeOn plan.byte placed }

@[simp] theorem Plan.puts_sight (plan : Plan) (placed : Placed) :
    (plan.puts placed).sight = plan.sight := rfl

/-- A store to a page with a frame of its own does not fault. -/
theorem fills_placeByte {v : Nat} (user : UserPage (pageOf v)) (own : Own (plan.sight (pageOf v)))
    (inside : P (v % virtualAddrEnd)) (b : UInt8) :
    Fills d t z P plan (placeByte d v b) fun _ plan' => plan' = plan.put (v % virtualAddrEnd) b := by
  have page : pageOf (v % virtualAddrEnd) = pageOf v := by simp [pageOf]
  refine Fills.bind (Q := fun ok plan' => ok = true ∧ plan' = plan.put (v % virtualAddrEnd) b)
    (Fills.act (fun _ => inside) fun s fits => ?_) ?_
  · have addr : UserAddr (v % virtualAddrEnd) := ⟨Nat.mod_lt _ (by decide), page.symm ▸ user⟩
    obtain ⟨mem, stored, -, fits'⟩ := fits.kstore addr (page.symm ▸ own) b
    have ran : Kernel.exec t (.place d v b) s = ({ s with mem := mem }, true) := by
      rw [Kernel.exec, Kernel.kstore, stored]
    rw [ran]
    exact ⟨_, fits', rfl, rfl⟩
  · rintro ok _ ⟨rfl, rfl⟩
    exact .ret rfl

theorem fills_placeBytes (bytes : List UInt8) (v : Nat)
    (inside : ∀ i < bytes.length, UserPage (pageOf (v + i)) ∧ Own (plan.sight (pageOf (v + i))) ∧
      P ((v + i) % virtualAddrEnd)) :
    Fills d t z P plan (placeBytes d v bytes) fun _ plan' => plan' = plan.puts (placedAt v bytes) := by
  induction bytes generalizing v plan with
  | nil => exact .ret rfl
  | cons b bytes ih =>
      obtain ⟨user, own, here⟩ := inside 0 (by simp)
      refine Fills.bind (fills_placeByte user own here b) ?_
      rintro _ _ rfl
      refine ih (v + 1) fun i hi => ?_
      have next := inside (i + 1) (by simpa using hi)
      rwa [Nat.add_assoc, Nat.add_comm 1 i]

theorem placeOn_placedAt_below {v w : Nat} (bytes : List UInt8) (g : Nat → UInt8)
    (fits : v + bytes.length ≤ virtualAddrEnd) (low : w < v) :
    placeOn g (placedAt v bytes) w = g w := by
  induction bytes generalizing v g with
  | nil => rfl
  | cons b bytes ih =>
      simp only [List.length_cons] at fits
      refine (ih (v := v + 1) _ (by omega) (by omega)).trans (Function.update_of_ne ?_ _ _)
      rw [Nat.mod_eq_of_lt (by omega)]
      omega

/-- What is read where bytes were placed. -/
theorem placeOn_placedAt {v w : Nat} (bytes : List UInt8) (g : Nat → UInt8)
    (fits : v + bytes.length ≤ virtualAddrEnd) (high : v ≤ w) :
    placeOn g (placedAt v bytes) w = bytes[w - v]?.getD (g w) := by
  induction bytes generalizing v g with
  | nil => rfl
  | cons b bytes ih =>
      simp only [List.length_cons] at fits
      have mod : v % virtualAddrEnd = v := Nat.mod_eq_of_lt (by omega)
      change placeOn (Function.update g (v % virtualAddrEnd) b) (placedAt (v + 1) bytes) w = _
      rw [mod]
      rcases Nat.eq_or_lt_of_le high with rfl | high
      · rw [placeOn_placedAt_below bytes _ (by omega) (by omega), Function.update_self, Nat.sub_self]
        rfl
      · rw [ih _ (by omega) high, Function.update_of_ne (by omega)]
        obtain ⟨i, rfl⟩ : ∃ i, w = v + 1 + i := ⟨w - (v + 1), by omega⟩
        rw [Nat.add_sub_cancel_left, show v + 1 + i - v = i + 1 by omega, List.getElem?_cons_succ]

end

end OsKernel.Loader
