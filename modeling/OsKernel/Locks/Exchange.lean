/-
The mutexes, access by access (`kern/mutex.c`, `user/libthread/mutex.c`).

`mutex_lock` exchanges until it finds the mutex unlocked, and yields to the thread in `tid`
between two tries; `mutex_unlock` clears `tid` before it unlocks. Between two accesses any other
thread may run. `mutexes_refine` says that a call is a single action of the machine in
`OsKernel.Locks`, at its `xchange` or at the store that unlocks; `exclusive_along` that at most
one thread is inside, and whom `tid` names.

The two libraries differ in the call that yields, and in that the one for users unlocks with an
`xchange` whose result it drops. The one for the kernel alone has `mutex_try_lock`. The values of
`LOCKED` and `UNLOCKED` are swapped between them (`user/inc/mutex_type.h`), so that the state
says which library its mutexes are from.
-/

import OsKernel.Lib.Run
import OsKernel.Locks.Machine

namespace OsKernel.Exchange

open OsKernel.Run

abbrev Mutex := Locks.Mutex

inductive Call where
  | lock (m : Mutex)
  | tryLock (m : Mutex)
  | unlock (m : Mutex)
deriving DecidableEq

/-- What a thread does next in a call. -/
inductive Pc where
  | out
  /-- `xchange` in `mutex_lock`. -/
  | exchange (m : Mutex)
  /-- The read of `tid` when the mutex was locked. -/
  | aim (m : Mutex)
  | yield (m : Mutex) (tid : Int)
  /-- `xchange` in `mutex_try_lock`. -/
  | attempt (m : Mutex)
  /-- The store of its own number to `tid`; in `mutex_try_lock` if `tries`. -/
  | sign (m : Mutex) (tries : Bool)
  /-- The store of -1 to `tid`. -/
  | clear (m : Mutex)
  /-- The store of `UNLOCKED`. -/
  | release (m : Mutex)
deriving DecidableEq

namespace Pc

/-- Between the `xchange` that finds the mutex unlocked and the store that unlocks it. -/
def inside (m : Mutex) : Pc → Bool
  | .sign m' _ | .clear m' | .release m' => m' = m
  | _ => false

/-- The mutex in whose `mutex_lock` the thread tries. -/
def spins : Pc → Option Mutex
  | .exchange m | .aim m | .yield m _ => some m
  | _ => none

end Pc

inductive Library where
  | kernel
  | user
deriving DecidableEq

namespace Library

/-- `UNLOCKED` -/
def unlocked : Library → Int
  | kernel => 0
  | user => 1

/-- `LOCKED` -/
def locked : Library → Int
  | kernel => 1
  | user => 0

theorem unlocked_ne_locked (library : Library) : library.unlocked ≠ library.locked := by
  cases library <;> decide

end Library

structure State where
  library : Library
  lockState : Mutex → Int
  tid : Mutex → Int
  pc : Nat → Pc
  /-- The mutexes for which a call to take them has returned to a thread, and that it has not
  begun to unlock. -/
  taken : Nat → Mutex → Bool
  /-- What the last `mutex_try_lock` of a thread returned. -/
  result : Nat → Int

namespace State

def goto (s : State) (t : Nat) (pc : Pc) : State := { s with pc := Function.update s.pc t pc }

/-- `xchange` with `LOCKED`. -/
def lock (s : State) (m : Mutex) : State :=
  { s with lockState := Function.update s.lockState m s.library.locked }

def setTaken (s : State) (t : Nat) (m : Mutex) (b : Bool) : State :=
  { s with taken := Function.update s.taken t (Function.update (s.taken t) m b) }

def setTid (s : State) (m : Mutex) (tid : Int) : State :=
  { s with tid := Function.update s.tid m tid }

def answer (s : State) (t : Nat) (n : Int) : State :=
  { s with result := Function.update s.result t n }

def call (s : State) (t : Nat) : Call → State
  | .lock m => s.goto t (.exchange m)
  | .tryLock m => s.goto t (.attempt m)
  | .unlock m => (s.setTaken t m false).goto t (.clear m)

/-- The next access of a thread. -/
def go (s : State) (t : Nat) : State :=
  match s.pc t with
  | .out => s
  | .exchange m =>
      if s.lockState m ≠ s.library.unlocked then (s.lock m).goto t (.aim m)
      else (s.lock m).goto t (.sign m false)
  | .aim m => s.goto t (.yield m (s.tid m))
  | .yield m _ => s.goto t (.exchange m)
  | .attempt m =>
      if s.lockState m ≠ s.library.unlocked then ((s.lock m).answer t (-1)).goto t .out
      else (s.lock m).goto t (.sign m true)
  | .sign m tries =>
      let s := (s.setTid m t).setTaken t m true
      (if tries then s.answer t 0 else s).goto t .out
  | .clear m => (s.setTid m (-1)).goto t (.release m)
  | .release m => { s with lockState := Function.update s.lockState m s.library.unlocked }.goto t .out

/-- The thread is inside: it may use what the mutex protects. -/
def Inside (s : State) (t : Nat) (m : Mutex) : Prop :=
  s.taken t m = true ∨ (s.pc t).inside m = true

end State

inductive Input where
  | call (t : Nat) (c : Call)
  | go (t : Nat)

def step (s : State) : Input → State
  | .call t c => if s.pc t = .out then s.call t c else s
  | .go t => s.go t

/-- A thread unlocks what it has taken; this is all that the callers keep to. -/
def Legal (s : State) : Input → Prop
  | .call t (.unlock m) => s.pc t = .out → s.taken t m = true
  | _ => True

instance (s : State) : DecidablePred (Legal s)
  | .call _ (.unlock _) => inferInstanceAs (Decidable (_ → _))
  | .call _ (.lock _) | .call _ (.tryLock _) | .go _ => isTrue trivial

/-! ### Calls as single actions -/

/-- The action at which a call happens, if it happens at this access. -/
def visible (s : State) : Input → Option (Nat × Locks.Act)
  | .call t (.lock m) => if s.pc t = .out then some (t, .call m) else none
  | .call _ _ => none
  | .go t =>
      match s.pc t with
      | .exchange m => if s.lockState m = s.library.unlocked then some (t, .take m) else none
      | .attempt m => some (t, .tryLock m)
      | .release m => some (t, .unlock m)
      | _ => none

def trace : State → List Input → List (Nat × Locks.Act)
  | _, [] => []
  | s, i :: is => (visible s i).toList ++ trace (step s i) is

def perform (l : Locks.State) (x : Nat × Locks.Act) : Locks.State := (Locks.exec x.1 x.2 l).1

/-- The action is possible, and a thread unlocks what it owns. -/
def Admits (l : Locks.State) (x : Nat × Locks.Act) : Prop :=
  l.proceeds x.2 = true ∧ ∀ m, x.2 = .unlock m → l.owner m = some x.1

/-- The state of the mutexes as the other machine has it: the owner is the thread that is
inside. -/
structure Related (s : State) (l : Locks.State) : Prop where
  inside : ∀ t m, s.Inside t m ↔ l.owner m = some t
  lockState : ∀ m, s.lockState m =
    if l.owner m = none then s.library.unlocked else s.library.locked
  spins : ∀ t, l.spins t = (s.pc t).spins
  once : ∀ t m, (s.pc t).inside m = true → s.taken t m = false
  tid : ∀ m, s.tid m = -1 ∨ ∃ t : Nat, s.tid m = t ∧ (s.taken t m = true ∨ s.pc t = .clear m)

variable {s : State} {l : Locks.State} {t u : Nat} {m m' : Mutex} {i : Input} {is : List Input}

theorem Pc.inside_sign {tries : Bool} : (Pc.sign m tries).inside m' = true ↔ m = m' :=
  decide_eq_true_iff

theorem Pc.inside_clear : (Pc.clear m).inside m' = true ↔ m = m' := decide_eq_true_iff

theorem Pc.inside_release : (Pc.release m).inside m' = true ↔ m = m' := decide_eq_true_iff

/-- One thread moves: the relation is kept for the others. -/
theorem Related.moved {s' : State} {l' : Locks.State} (h : Related s l)
    (pcs : ∀ u, u ≠ t → s'.pc u = s.pc u) (takens : ∀ u, u ≠ t → s'.taken u = s.taken u)
    (owners : ∀ u m, u ≠ t → (l'.owner m = some u ↔ l.owner m = some u))
    (waits : ∀ u, u ≠ t → l'.spins u = l.spins u)
    (inside : ∀ m, s'.Inside t m ↔ l'.owner m = some t)
    (lockState : ∀ m, s'.lockState m =
      if l'.owner m = none then s'.library.unlocked else s'.library.locked)
    (spins : l'.spins t = (s'.pc t).spins)
    (once : ∀ m, (s'.pc t).inside m = true → s'.taken t m = false)
    (tid : ∀ m, s'.tid m = -1 ∨
      ∃ u : Nat, s'.tid m = u ∧ (s'.taken u m = true ∨ s'.pc u = .clear m)) : Related s' l' := by
  constructor
  · intro u m
    by_cases same : u = t
    · exact same ▸ inside m
    · rw [owners u m same, ← h.inside u m, State.Inside, State.Inside, pcs u same, takens u same]
  · exact lockState
  · intro u
    by_cases same : u = t
    · exact same ▸ spins
    · rw [waits u same, pcs u same, h.spins u]
  · intro u m
    by_cases same : u = t
    · exact same ▸ once m
    · rw [pcs u same, takens u same]
      exact h.once u m
  · exact tid

@[simp] theorem goto_self (pc : Pc) : (s.goto t pc).pc t = pc := Function.update_self ..

theorem goto_other (pc : Pc) (ne : u ≠ t) : (s.goto t pc).pc u = s.pc u :=
  Function.update_of_ne ne ..

theorem setTaken_other {b : Bool} (ne : u ≠ t) : (s.setTaken t m b).taken u = s.taken u :=
  Function.update_of_ne ne ..

theorem setTaken_self {b : Bool} : (s.setTaken t m b).taken t m' = if m' = m then b else s.taken t m' := by
  simp only [State.setTaken, Function.update_self, Function.update_apply]

/-- Whom `tid` names stays the same when the thread that moves was not about to clear it. -/
theorem Related.named {pc : Pc} (h : Related s l) (clears : s.pc t ≠ .clear m) :
    s.tid m = -1 ∨
      ∃ u : Nat, s.tid m = u ∧ (s.taken u m = true ∨ (s.goto t pc).pc u = .clear m) := by
  refine (h.tid m).imp_right ?_
  rintro ⟨u, named, holds⟩
  refine ⟨u, named, holds.imp_right fun at_clear => ?_⟩
  have other : u ≠ t := by
    rintro rfl
    exact clears at_clear
  rw [goto_other pc other, at_clear]

/-- A thread goes on and nothing else changes that the relation is about. -/
theorem Related.goto {pc pc' : Pc} (h : Related s l) (here : s.pc t = pc)
    (inside : ∀ m, pc'.inside m = pc.inside m) (spins : pc'.spins = pc.spins)
    (clears : ∀ m, pc ≠ .clear m) : Related (s.goto t pc') l := by
  subst here
  apply h.moved (t := t)
  · exact fun u ne => goto_other pc' ne
  · exact fun _ _ => rfl
  · exact fun _ _ _ => Iff.rfl
  · exact fun _ _ => rfl
  · intro m
    rw [← h.inside t m, State.Inside, State.Inside, goto_self, inside]
    rfl
  · exact h.lockState
  · rw [goto_self, spins, h.spins]
  · intro m
    rw [goto_self, inside]
    exact h.once t m
  · exact fun m => h.named (clears m)

/-- `mutex_lock` is called. -/
theorem Related.call_lock (h : Related s l) (free : s.pc t = .out) :
    Related (s.goto t (.exchange m)) (l.call t m) := by
  apply h.moved (t := t)
  · exact fun u ne => goto_other _ ne
  · exact fun _ _ => rfl
  · exact fun _ _ _ => Iff.rfl
  · exact fun u ne => Function.update_of_ne ne ..
  · intro m'
    change (s.goto t (.exchange m)).Inside t m' ↔ l.owner m' = some t
    rw [← h.inside t m', State.Inside, State.Inside, goto_self, free]
    rfl
  · exact h.lockState
  · rw [goto_self]
    exact Function.update_self ..
  · intro m' hit
    rw [goto_self] at hit
    exact absurd hit Bool.false_ne_true
  · intro m'
    exact h.named (by rw [free]; exact Pc.noConfusion)

/-- `mutex_unlock` is called by the thread that has taken the mutex. -/
theorem Related.call_unlock (h : Related s l) (free : s.pc t = .out) (has : s.taken t m = true) :
    Related ((s.setTaken t m false).goto t (.clear m)) l := by
  have inside : ∀ m', s.Inside t m' ↔ s.taken t m' = true := by
    intro m'
    rw [State.Inside, free]
    exact or_iff_left Bool.false_ne_true
  have taken : ∀ m', ((s.setTaken t m false).goto t (.clear m)).taken t m' =
      if m' = m then false else s.taken t m' := fun m' => setTaken_self
  apply h.moved (t := t)
  · exact fun u ne => goto_other _ ne
  · exact fun u ne => setTaken_other ne
  · exact fun _ _ _ => Iff.rfl
  · exact fun _ _ => rfl
  · intro m'
    rw [← h.inside t m', inside m', State.Inside, taken, goto_self]
    by_cases same : m' = m
    · rw [same, has]
      exact iff_of_true (.inr (Pc.inside_clear.mpr rfl)) rfl
    · rw [if_neg same]
      exact or_iff_left fun hit => same (Pc.inside_clear.mp hit).symm
  · exact h.lockState
  · rw [goto_self, h.spins, free]
    rfl
  · intro m' hit
    rw [goto_self] at hit
    rw [taken, if_pos (Pc.inside_clear.mp hit).symm]
  · intro m'
    refine (h.tid m').imp_right ?_
    rintro ⟨u, named, holds⟩
    refine ⟨u, named, ?_⟩
    by_cases other : u = t
    · subst other
      have still : s.taken u m' = true := holds.resolve_right (by rw [free]; exact Pc.noConfusion)
      by_cases same : m' = m
      · rw [goto_self, same]
        exact .inr rfl
      · rw [taken, if_neg same]
        exact .inl still
    · rw [goto_other _ other]
      exact holds.imp_left fun still => (congrFun (setTaken_other other) m').trans still

/-- The `xchange` finds the mutex unlocked, in either call. -/
theorem Related.acquire {l' : Locks.State} {tries : Bool} (h : Related s l)
    (free : l.owner m = none) (outside : ∀ m', (s.pc t).inside m' = false)
    (owner : l'.owner = Function.update l.owner m (some t))
    (waits : l'.spins = Function.update l.spins t none) :
    Related ((s.lock m).goto t (.sign m tries)) l' := by
  have clears : ∀ m', s.pc t ≠ .clear m' := by
    intro m' at_clear
    have inside : (s.pc t).inside m' = true := at_clear ▸ Pc.inside_clear.mpr rfl
    exact absurd (outside m') (by rw [inside]; exact Bool.noConfusion)
  have old : ∀ m', s.taken t m' = true ↔ l.owner m' = some t := by
    intro m'
    rw [← h.inside t m', State.Inside, outside]
    exact (or_iff_left Bool.false_ne_true).symm
  apply h.moved (t := t)
  · exact fun u ne => goto_other _ ne
  · exact fun _ _ => rfl
  · intro u m' ne
    rw [owner, Function.update_apply]
    split
    · rename_i same
      rw [same, free]
      exact iff_of_false (fun claim => ne (Option.some.inj claim).symm) (fun claim => by cases claim)
    · rfl
  · intro u ne
    rw [waits, Function.update_of_ne ne]
  · intro m'
    rw [State.Inside, goto_self, owner, Function.update_apply, Pc.inside_sign]
    by_cases same : m' = m
    · rw [if_pos same]
      exact iff_of_true (.inr same.symm) rfl
    · rw [if_neg same, ← old m']
      exact or_iff_left fun hit => same hit.symm
  · intro m'
    change Function.update s.lockState m s.library.locked m' = _
    rw [owner, Function.update_apply, Function.update_apply]
    split
    · rfl
    · exact h.lockState m'
  · rw [waits, Function.update_self, goto_self]
    rfl
  · intro m' hit
    rw [goto_self] at hit
    have same := Pc.inside_sign.mp hit
    change s.taken t m' = false
    rw [← Bool.not_eq_true, old m', ← same, free]
    exact fun claim => by cases claim
  · exact fun m' => h.named (clears m')

/-- The thread stores its number and returns with the mutex. -/
theorem Related.sign {tries : Bool} (h : Related s l) (here : s.pc t = .sign m tries) :
    Related (((s.setTid m t).setTaken t m true).goto t .out) l := by
  have taken : ∀ m', (((s.setTid m t).setTaken t m true).goto t .out).taken t m' =
      if m' = m then true else s.taken t m' := fun m' => setTaken_self
  apply h.moved (t := t)
  · exact fun u ne => goto_other _ ne
  · exact fun u ne => setTaken_other ne
  · exact fun _ _ _ => Iff.rfl
  · exact fun _ _ => rfl
  · intro m'
    rw [← h.inside t m', State.Inside, State.Inside, taken, goto_self, here, Pc.inside_sign]
    by_cases same : m' = m
    · rw [if_pos same]
      exact iff_of_true (.inl rfl) (.inr same.symm)
    · rw [if_neg same]
      exact or_congr_right (iff_of_false Bool.false_ne_true fun hit => same hit.symm)
  · exact h.lockState
  · rw [goto_self, h.spins, here]
    rfl
  · intro m' hit
    rw [goto_self] at hit
    exact absurd hit Bool.false_ne_true
  · intro m'
    by_cases same : m' = m
    · rw [same]
      refine .inr ⟨t, Function.update_self .., .inl ?_⟩
      rw [taken, if_pos rfl]
    · have kept : (((s.setTid m t).setTaken t m true).goto t .out).tid m' = s.tid m' :=
        Function.update_of_ne same ..
      rw [kept]
      refine (h.tid m').imp_right ?_
      rintro ⟨u, named, holds⟩
      refine ⟨u, named, ?_⟩
      by_cases other : u = t
      · subst other
        rw [taken, if_neg same]
        exact .inl (holds.resolve_right (by rw [here]; exact Pc.noConfusion))
      · rw [goto_other _ other]
        exact holds.imp_left fun still => (congrFun (setTaken_other other) m').trans still

/-- The thread clears `tid` before it unlocks. -/
theorem Related.clear (h : Related s l) (here : s.pc t = .clear m) :
    Related ((s.setTid m (-1)).goto t (.release m)) l := by
  apply h.moved (t := t)
  · exact fun u ne => goto_other _ ne
  · exact fun _ _ => rfl
  · exact fun _ _ _ => Iff.rfl
  · exact fun _ _ => rfl
  · intro m'
    rw [← h.inside t m', State.Inside, State.Inside, goto_self, here, Pc.inside_release,
      Pc.inside_clear]
    rfl
  · exact h.lockState
  · rw [goto_self, h.spins, here]
    rfl
  · intro m' hit
    rw [goto_self, Pc.inside_release] at hit
    exact h.once t m' (here ▸ Pc.inside_clear.mpr hit)
  · intro m'
    by_cases same : m' = m
    · exact .inl (same ▸ Function.update_self ..)
    · have kept : ((s.setTid m (-1)).goto t (.release m)).tid m' = s.tid m' :=
        Function.update_of_ne same ..
      rw [kept]
      exact h.named (by
        rw [here]
        exact fun at_clear => same (Pc.clear.inj at_clear).symm)

/-- The store that unlocks; nobody is named by `tid` any more. -/
theorem Related.release (h : Related s l) (here : s.pc t = .release m) :
    l.owner m = some t ∧
      Related (State.goto { s with lockState := Function.update s.lockState m s.library.unlocked } t .out)
        (l.unlock m) := by
  have inside : (s.pc t).inside m = true := here ▸ Pc.inside_release.mpr rfl
  have owns : l.owner m = some t := (h.inside t m).mp (.inr inside)
  have gone : s.taken t m = false := h.once t m inside
  refine ⟨owns, ?_⟩
  have owner : ∀ m', (l.unlock m).owner m' = if m' = m then none else l.owner m' := fun m' =>
    Function.update_apply ..
  apply h.moved (t := t)
  · exact fun u ne => goto_other _ ne
  · exact fun _ _ => rfl
  · intro u m' ne
    rw [owner]
    split
    · rename_i same
      rw [same, owns]
      exact iff_of_false (fun claim => by cases claim) fun claim => ne (Option.some.inj claim).symm
    · rfl
  · exact fun _ _ => rfl
  · intro m'
    rw [State.Inside, goto_self, owner]
    change s.taken t m' = true ∨ false = true ↔ _
    by_cases same : m' = m
    · rw [if_pos same, same, gone]
      exact iff_of_false (by simp) fun claim => by cases claim
    · rw [if_neg same, ← h.inside t m', State.Inside, here, Pc.inside_release]
      exact or_congr_right (iff_of_false Bool.false_ne_true fun hit => same hit.symm)
  · intro m'
    change Function.update s.lockState m s.library.unlocked m' = _
    rw [owner, Function.update_apply]
    split
    · rfl
    · exact h.lockState m'
  · rw [goto_self]
    change l.spins t = none
    rw [h.spins, here]
    rfl
  · intro m' hit
    rw [goto_self] at hit
    exact absurd hit Bool.false_ne_true
  · exact fun m' => h.named (by rw [here]; exact Pc.noConfusion)

theorem lock_of_locked (taken : s.lockState m = s.library.locked) : s.lock m = s := by
  rw [State.lock, ← taken, Function.update_eq_self]

theorem Related.locked (h : Related s l) (shut : s.lockState m ≠ s.library.unlocked) :
    s.lockState m = s.library.locked ∧ l.owner m ≠ none := by
  have state := h.lockState m
  by_cases free : l.owner m = none
  · exact absurd (state.trans (if_pos free)) shut
  · exact ⟨state.trans (if_neg free), free⟩

theorem Related.open (h : Related s l) (free : s.lockState m = s.library.unlocked) : l.owner m = none := by
  by_contra owned
  have state := h.lockState m
  rw [if_neg owned, free] at state
  exact absurd state s.library.unlocked_ne_locked

theorem Related.answer (h : Related s l) (n : Int) : Related (s.answer t n) l :=
  ⟨h.inside, h.lockState, h.spins, h.once, h.tid⟩

/-- The exchange of `mutex_try_lock`: it finds the mutex unlocked just when the other machine
gives it. -/
theorem Related.attempt (h : Related s l) (here : s.pc t = .attempt m) :
    Related (s.go t) (Locks.exec t (.tryLock m) l).1 ∧
      ((Locks.exec t (.tryLock m) l).2 = true ∧ (s.go t).pc t = .sign m true ∨
        (Locks.exec t (.tryLock m) l).2 = false ∧ (s.go t).pc t = .out ∧
          (s.go t).result t = -1) := by
  by_cases shut : s.lockState m ≠ s.library.unlocked
  · obtain ⟨state, owned⟩ := h.locked shut
    have next : s.go t = (s.answer t (-1)).goto t .out := by
      simp only [State.go, here, if_pos shut, lock_of_locked state]
    have given : Locks.exec t (.tryLock m) l = (l, false) := if_neg owned
    have still : (s.answer t (-1)).pc t = .attempt m := here
    rw [given, next]
    constructor
    · exact (h.answer (-1)).goto still (fun _ => rfl) rfl fun _ no => by cases no
    · exact .inr ⟨rfl, goto_self _, Function.update_self ..⟩
  · have free := h.open (not_not.mp shut)
    have next : s.go t = (s.lock m).goto t (.sign m true) := by
      simp only [State.go, here, if_neg shut]
    have given : Locks.exec t (.tryLock m) l = (l.hold t m, true) := if_pos free
    have idle : l.spins t = none := by
      rw [h.spins, here]
      rfl
    rw [given, next]
    constructor
    · apply h.acquire free
      · intro m'
        rw [here]
        rfl
      · rfl
      · rw [← idle, Function.update_eq_self]
        rfl
    · exact .inl ⟨rfl, goto_self _⟩

theorem no_action (x : Nat × Locks.Act) (no : none = some x) : Admits l x := by
  cases no

/-- The beginning of a call. -/
theorem simulates_call {c : Call} (h : Related s l) (free : s.pc t = .out)
    (legal : Legal s (.call t c)) :
    (∀ x, visible s (.call t c) = some x → Admits l x) ∧
      Related (s.call t c) ((visible s (.call t c)).elim l (perform l)) := by
  cases c with
  | lock m =>
      rw [visible, if_pos free]
      constructor
      · intro x same
        cases same
        exact ⟨rfl, fun _ no => by cases no⟩
      · exact h.call_lock free
  | tryLock m =>
      constructor
      · exact no_action
      · exact h.goto free (fun _ => rfl) rfl fun _ no => by cases no
  | unlock m =>
      constructor
      · exact no_action
      · exact h.call_unlock free (legal free)

/-- An access in a call. -/
theorem simulates_go (h : Related s l) :
    (∀ x, visible s (.go t) = some x → Admits l x) ∧
      Related (s.go t) ((visible s (.go t)).elim l (perform l)) := by
  cases here : s.pc t with
  | out =>
      simp only [visible, State.go, here]
      exact ⟨no_action, h⟩
  | exchange m =>
      by_cases shut : s.lockState m ≠ s.library.unlocked
      · simp only [visible, State.go, here, if_neg shut, if_pos shut,
          lock_of_locked (h.locked shut).1]
        exact ⟨no_action,
          h.goto here (fun _ => rfl) rfl fun _ no => by cases no⟩
      · have free := h.open (not_not.mp shut)
        simp only [visible, State.go, here, if_neg shut, if_pos (not_not.mp shut)]
        constructor
        · intro x same
          cases same
          exact ⟨decide_eq_true free, fun _ no => by cases no⟩
        · apply h.acquire free
          · intro m'
            rw [here]
            rfl
          · rfl
          · rfl
  | aim m =>
      simp only [visible, State.go, here]
      exact ⟨no_action, h.goto here (fun _ => rfl) rfl fun _ no => by cases no⟩
  | yield m tid =>
      simp only [visible, State.go, here]
      exact ⟨no_action, h.goto here (fun _ => rfl) rfl fun _ no => by cases no⟩
  | attempt m =>
      simp only [visible, here]
      constructor
      · intro x same
        cases same
        exact ⟨rfl, fun _ no => by cases no⟩
      · exact (h.attempt here).1
  | sign m tries =>
      simp only [visible, State.go, here]
      constructor
      · exact no_action
      · cases tries with
        | false => exact h.sign here
        | true => exact (h.sign here).answer 0
  | clear m =>
      simp only [visible, State.go, here]
      exact ⟨no_action, h.clear here⟩
  | release m =>
      simp only [visible, State.go, here]
      obtain ⟨owns, related⟩ := h.release here
      constructor
      · intro x same
        cases same
        refine ⟨rfl, fun m' same => ?_⟩
        cases same
        exact owns
      · exact related

/-- Each access is an action of the other machine, or none. -/
theorem simulates (h : Related s l) (legal : Legal s i) :
    (∀ x, visible s i = some x → Admits l x) ∧
      Related (step s i) ((visible s i).elim l (perform l)) := by
  cases i with
  | call t c =>
      by_cases free : s.pc t = .out
      · rw [step, if_pos free]
        exact simulates_call h free legal
      · have none : visible s (.call t c) = none := by
          cases c with
          | lock m => exact if_neg free
          | tryLock m => rfl
          | unlock m => rfl
        rw [step, if_neg free, none]
        exact ⟨no_action, h⟩
  | go t => exact simulates_go h

/-! ### Runs -/

theorem refines (start : Related s l) (legal : StepsMeet step Legal s is) :
    StepsMeet perform Admits l (trace s is) ∧
      Related (run step s is) (run perform l (trace s is)) := by
  induction is generalizing s l with
  | nil => exact ⟨trivial, start⟩
  | cons i is ih =>
      obtain ⟨admits, next⟩ := simulates start legal.1
      rw [run_cons, trace]
      cases seen : visible s i with
      | none =>
          rw [seen] at next
          exact ih next legal.2
      | some x =>
          rw [seen] at next
          obtain ⟨rest, last⟩ := ih next legal.2
          exact ⟨⟨admits x seen, rest⟩, last⟩

/-- After `mutex_init`. -/
def fresh (library : Library) : State :=
  { library := library, lockState := fun _ => library.unlocked, tid := fun _ => -1, pc := fun _ => .out,
    taken := fun _ _ => false, result := fun _ => 0 }

theorem related_fresh (library : Library) (owner : ∀ m, l.owner m = none)
    (spins : ∀ t, l.spins t = none) : Related (fresh library) l := by
  constructor
  · intro t m
    rw [owner]
    exact iff_of_false (by simp [State.Inside, fresh, Pc.inside]) fun claim => by cases claim
  · exact fun m => (if_pos (owner m)).symm
  · exact spins
  · exact fun _ _ _ => rfl
  · exact fun _ => .inl rfl

/-- In every run of calls on the mutexes each call happens as one action of the other machine,
at an access between its beginning and its end: `mutex_lock` when the mutex is free,
`mutex_unlock` when it is the caller's, and `mutex_try_lock` with the answer that it gives. -/
theorem mutexes_refine (start : Related s l) (legal : StepsMeet step Legal s is) :
    StepsMeet perform Admits l (trace s is) ∧
      Related (run step s is) (run perform l (trace s is)) ∧
      ∀ t m, (run step s is).pc t = .attempt m →
        (Locks.exec t (.tryLock m) (run perform l (trace s is))).2 = true ∧
            ((run step s is).go t).pc t = .sign m true ∨
          (Locks.exec t (.tryLock m) (run perform l (trace s is))).2 = false ∧
            ((run step s is).go t).pc t = .out ∧ ((run step s is).go t).result t = -1 := by
  obtain ⟨admits, last⟩ := refines start legal
  exact ⟨admits, last, fun t m here => (last.attempt here).2⟩

/-- The other machine with two threads that hold nothing. -/
def twoThreads : Locks.State :=
  { threadCount := 2, procCount := 2, proc := fun _ => 1, alive := fun _ => true,
    children := fun _ => [], gone := fun _ => false, owner := fun _ => none,
    spins := fun _ => none, oracle := fun _ => 0 }

/-- Thread 1 tries while thread 0 takes the mutex and unlocks it. -/
def contended : List Input :=
  [.call 0 (.lock .vmLock), .go 0, .call 1 (.lock .vmLock), .go 1, .go 1, .go 0, .go 1, .go 1,
    .go 1, .call 0 (.unlock .vmLock), .go 0, .go 0, .go 1, .go 1, .call 0 (.tryLock .vmLock)]

theorem mutexes_refine_contended :
    StepsMeet perform Admits twoThreads (trace (fresh .kernel) contended) ∧
      Related (run step (fresh .kernel) contended)
        (run perform twoThreads (trace (fresh .kernel) contended)) := by
  have refined := mutexes_refine (related_fresh (l := twoThreads) .kernel (fun _ => rfl) fun _ => rfl)
    (show StepsMeet step Legal (fresh .kernel) contended by decide)
  exact ⟨refined.1, refined.2.1⟩

/-- What the mutexes are for. -/
structure Exclusive (s : State) : Prop where
  one : ∀ m t u, s.Inside t m → s.Inside u m → t = u
  shut : ∀ m, s.lockState m ≠ s.library.unlocked ↔ ∃ t, s.Inside t m
  /-- The thread to which the others yield is inside, or none is named. -/
  named : ∀ m, s.tid m = -1 ∨ ∃ t : Nat, s.tid m = t ∧ s.Inside t m

theorem Related.exclusive (h : Related s l) : Exclusive s := by
  constructor
  · intro m t u first second
    have owner := (h.inside t m).mp first
    rw [(h.inside u m).mp second] at owner
    exact (Option.some.inj owner).symm
  · intro m
    constructor
    · intro shut
      obtain ⟨t, owner⟩ := Option.ne_none_iff_exists'.mp (h.locked shut).2
      exact ⟨t, (h.inside t m).mpr owner⟩
    · rintro ⟨t, inside⟩ free
      have owner := (h.inside t m).mp inside
      rw [h.open free] at owner
      cases owner
  · intro m
    refine (h.tid m).imp_right ?_
    rintro ⟨t, named, holds⟩
    refine ⟨t, named, holds.imp_right fun at_clear => ?_⟩
    rw [at_clear]
    exact Pc.inside_clear.mpr rfl

/-- However the accesses of the threads follow each other, at most one thread is inside, the word
is locked just when one is, and `tid` names no other. -/
theorem exclusive_along (start : Related s l) (legal : StepsMeet step Legal s is) :
    Along step Exclusive s is := by
  have related : Along step (fun s => ∃ l, Related s l) s is :=
    along_of_stepsMeet (I := fun s => ∃ l, Related s l) (fun _ related => related)
      (fun s i related legal => by
        obtain ⟨l, related⟩ := related
        exact ⟨_, (simulates related legal).2⟩)
      ⟨l, start⟩ legal
  apply related.mono
  rintro s ⟨l, related⟩
  exact related.exclusive

theorem exclusive_along_contended : Along step Exclusive (fresh .user) contended.dropLast :=
  exclusive_along (related_fresh (l := twoThreads) .user (fun _ => rfl) fun _ => rfl) (by decide)

end OsKernel.Exchange
