/-
One rule for each action that a handler performs on the directory its process
runs in.

`Here` is the assertion: the thread runs in the directory, which shows the flat
memory of its process, whatever that is now. A map puts a page into the exception
of the assertion, and the `memset` that follows takes it out.
-/

import OsKernel.Memory.Assert
import OsKernel.Memory.Loader

namespace OsKernel.Memory

open OsKernel.Vm

/-- The thread runs in directory `d`, and may hold another one. -/
def Here (bad held : Option Nat) (t d : Nat) (s : Kernel) : Prop := ∃ p f, At bad held t d f s p

variable {full : Bool} {t d : Nat} {bad held : Option Nat}

theorem Here.stable : (sys full).Stable t (Here bad held t d) := by
  rintro s s' ⟨p, f, h⟩ rely
  exact ⟨p, f, h.of_rely rely⟩

theorem ready_of_here {s : Kernel} (h : Here none none t d s) : Ready t s := by
  obtain ⟨p, f, h⟩ := h
  exact ⟨p, d, f, h⟩

theorem Ready.stable : (sys full).Stable t (Ready t) := by
  rintro s s' ⟨p, e, f, h⟩ rely
  exact ⟨p, e, f, h.of_rely rely⟩

/-- A state that did not change owes nothing to anyone. -/
theorem guarantees_refl (s : Kernel) : (sys full).Guarantees t s s := by
  refine fun t' _ live => ⟨fun _ => Kernel.Rely.refl t' s, fun dead => ?_⟩
  exact absurd live (by simpa [sys] using dead)

/-- An action that only reads. -/
theorem triple_read {a : Act} {P : Kernel → Prop} (stable : (sys full).Stable t P)
    (answer : Kernel → a.Result) (reads : ∀ s, Kernel.exec t a s = (s, answer s)) :
    (sys full).Triple t P (act a) fun r s => P s ∧ r = answer s :=
  Sys.Triple.perform stable fun s inv _ _ pre =>
    ⟨s, answer s, reads s, inv, guarantees_refl s, fun _ => ⟨pre, rfl⟩⟩

theorem triple_current {P : Kernel → Prop} (stable : (sys full).Stable t P) :
    (sys full).Triple t P (act .current) fun r s => P s ∧ r = s.proc t :=
  triple_read (a := .current) stable (fun s => s.proc t) fun _ => rfl

/-! ### Memory that shows the same bytes -/

variable {s : Kernel} {p : Nat} {f : Nat → UInt8}

theorem At.of_bytes (h : At bad held t d f s p) {mem : Mem}
    (bytes : s.shared p = false → ∀ w, UserAddr w → mem.byteAt d w = s.mem.byteAt d w) :
    At bad held t d f { s with mem := mem } p := by
  refine ⟨h.thread, h.dir, h.holds, h.owner, h.flat, fun hs w user => ?_⟩
  rw [bytes hs w user]
  exact h.shows hs w user

/-- An action on a directory that showed the same bytes afterwards. -/
theorem step_same (inv : s.Inv full) (h : At bad held t d f s p) {mem : Mem}
    (confined : Confined d s.mem mem)
    (bytes : s.shared p = false → ∀ w, UserAddr w → mem.byteAt d w = s.mem.byteAt d w) :
    Kernel.Inv full { s with mem := mem } ∧ (sys full).Guarantees t s { s with mem := mem } ∧
      At bad held t d f { s with mem := mem } p := by
  obtain ⟨inv', guar⟩ := step_mem inv h.thread h.mine confined s.trace
    (fun _ _ => rfl) inv.agree
  exact ⟨inv', guar, h.of_bytes bytes⟩

theorem step_unchanged (inv : s.Inv full) (h : At bad held t d f s p) {mem : Mem}
    (same : Unchanged s.mem mem) :
    Kernel.Inv full { s with mem := mem } ∧ (sys full).Guarantees t s { s with mem := mem } ∧
      At bad held t d f { s with mem := mem } p :=
  step_same inv h (same.confined inv.mem d) fun _ w _ => same.byteAt d w

theorem triple_malloc_here (size : Nat) :
    (sys full).Triple t (Here bad held t d) (act (.malloc size)) fun _ => Here bad held t d := by
  refine Sys.Triple.perform Here.stable ?_
  rintro s inv - - ⟨p, f, h⟩
  by_cases large : userMemStart ≤ size
  · exact ⟨s, false, if_pos large, inv, guarantees_refl s, fun _ => ⟨p, f, h⟩⟩
  · have same : Unchanged s.mem (s.mem.withVm s.mem.vm.malloc.2) := ⟨rfl, rfl⟩
    obtain ⟨inv', guar, h'⟩ := step_unchanged inv h same
    exact ⟨_, _, if_neg large, inv', guar, fun _ => ⟨p, f, h'⟩⟩

/-! ### Maps -/

/-- A map leaves one page to be written. -/
theorem triple_mapNewFrame_here (v : Nat) :
    (sys full).Triple t (Here none held t d) (act (.mapNewFrame d v)) fun ok s =>
      bif ok then UserPage (pageOf v) ∧ Here (some (pageOf v)) held t d s else Here none held t d s := by
  refine Sys.Triple.perform Here.stable ?_
  rintro s inv - - ⟨p, f, h⟩
  rcases mapNewFrame_mem inv.mem d v with ⟨fails, same⟩ | ⟨avail, pte, ok, unmapped, nz, set⟩
  · obtain ⟨inv', guar, h'⟩ := step_unchanged inv h same
    exact ⟨_, false, Prod.ext rfl fails, inv', guar, fun _ => ⟨p, f, h'⟩⟩
  · obtain ⟨inv', guar⟩ := step_mem inv h.thread h.mine set.confined s.trace
      (fun _ _ => rfl) inv.agree
    refine ⟨_, true, Prod.ext rfl ok, inv', guar, fun _ => ?_⟩
    refine ⟨set.user, p, f, h.thread, h.dir, h.holds, h.owner, h.flat, fun hs w user => ?_⟩
    have old := h.shows hs w user
    simp only [reduceCtorEq, ↓reduceIte] at old
    by_cases page : pageOf w = pageOf v
    · rw [if_pos (congrArg some page), old]
      exact byteAt_unmapped (page ▸ unmapped)
    · rw [if_neg (by simpa using page), old]
      exact (set.bytes w user page).symm

theorem triple_clearPage_here {v : Nat} (user : UserPage (pageOf v)) :
    (sys full).Triple t (Here (some (pageOf v)) held t d) (act (.clearPage d v))
      fun _ => Here none held t d := by
  refine Sys.Triple.perform Here.stable ?_
  rintro s inv - - ⟨p, f, h⟩
  obtain ⟨confined, -, bytes⟩ := clearPage_mem inv.mem d v user
  obtain ⟨inv', guar⟩ := step_mem inv h.thread h.mine confined s.trace
    (fun _ _ => rfl) inv.agree
  refine ⟨_, (), rfl, inv', guar,
    fun _ => ⟨p, f, h.thread, h.dir, h.holds, h.owner, h.flat, fun hs w huser => ?_⟩⟩
  simp only [reduceCtorEq, ↓reduceIte]
  rw [bytes w huser, h.shows hs w huser]
  simp

/-- `mapAndClearNew` hides the map behind the `memset`. -/
theorem triple_mapAndClearNew_here (v : Nat) :
    (sys full).Triple t (Here none held t d) (mapAndClearNew d v) fun _ => Here none held t d := by
  refine Sys.Triple.bind (triple_mapNewFrame_here v) fun ok => ?_
  cases ok with
  | false => exact Sys.Triple.ret fun s _ h => h
  | true =>
      refine Sys.Triple.bind ?_ fun _ => Sys.Triple.ret fun s _ h => h
      intro s inv live pre
      exact triple_clearPage_here pre.1 s inv live pre.2

theorem triple_mapZeroFrame_here (v : Nat) :
    (sys full).Triple t (Here none held t d) (act (.mapZeroFrame d v)) fun _ => Here none held t d := by
  refine Sys.Triple.perform Here.stable ?_
  rintro s inv - - ⟨p, f, h⟩
  rcases mapZeroFrame_mem inv.mem d v with ⟨fails, same⟩ | ⟨avail, pte, ok, unmapped, zero, set⟩
  · obtain ⟨inv', guar, h'⟩ := step_unchanged inv h same
    exact ⟨_, false, Prod.ext rfl fails, inv', guar, fun _ => ⟨p, f, h'⟩⟩
  · have bytes : s.shared p = false → ∀ w, UserAddr w →
        (s.mem.withVm (mapZeroFrame s.mem.vm d v).2).byteAt d w = s.mem.byteAt d w := by
      intro _ w user
      by_cases page : pageOf w = pageOf v
      · rw [byteAt_zero set.confined.inv (page ▸ set.now) zero, byteAt_unmapped (page ▸ unmapped)]
      · exact set.bytes w user page
    obtain ⟨inv', guar, h'⟩ := step_same inv h set.confined bytes
    exact ⟨_, true, Prod.ext rfl ok, inv', guar, fun _ => ⟨p, f, h'⟩⟩

/-! ### Pages that become available -/

/-- The flat memory forgets a page that became available. -/
def forget (f : Nat → UInt8) (page : Nat) : Nat → UInt8 := fun w => if pageOf w = page then 0 else f w

theorem noteAvailable_eq (h : At bad held t d f s p) (mem : Mem) (v : Nat) :
    Kernel.noteAvailable { s with mem := mem } t d v =
      { s with mem := mem, trace := s.trace ++ [.available p (pageOf v)] } := by
  obtain ⟨pr, hp, hd⟩ := Option.map_eq_some_iff.mp h.dir
  simp [Kernel.noteAvailable, Kernel.proc, h.thread, hp, hd]

theorem flatOf_available (trace : List Event) (p page q : Nat) :
    flatOf (trace ++ [.available p page]) q =
      if q = p then forget (flatOf trace p) page else flatOf trace q := by
  rw [flatOf_concat]
  by_cases same : q = p
  · subst same
    simp only [Flat.step, Function.update_self, ↓reduceIte]
    rfl
  · simp [Flat.step, same]

/-- A page of the process became available: it shows zeros, and the flat memory
forgets it. -/
theorem step_available (inv : s.Inv full) (h : At none held t d f s p) {mem : Mem} {v : Nat}
    (confined : Confined d s.mem mem)
    (zero : ∀ w, UserAddr w → pageOf w = pageOf v → mem.byteAt d w = 0)
    (bytes : SameBut d (pageOf v) s.mem mem) :
    let s' := { s with mem := mem, trace := s.trace ++ [.available p (pageOf v)] }
    Kernel.Inv full s' ∧ (sys full).Guarantees t s s' ∧ At none held t d (forget f (pageOf v)) s' p := by
  obtain ⟨inv', guar⟩ := step_mem inv h.thread h.mine confined
    (s.trace ++ [.available p (pageOf v)])
    (fun q ne => by rw [flatOf_available, if_neg ne])
    (fun single => loadsAgree_concat (inv.agree single) (by simp))
  refine ⟨inv', guar, h.thread, h.dir, h.holds, h.owner, fun hs => ?_, fun hs w user => ?_⟩
  · rw [flatOf_available, if_pos rfl, h.flat hs]
  · have old := h.shows hs w user
    simp only [reduceCtorEq, ↓reduceIte, forget] at old ⊢
    by_cases page : pageOf w = pageOf v
    · rw [if_pos page, zero w user page]
    · rw [if_neg page, old]
      exact (bytes w user page).symm

/-- A page given back. -/
theorem triple_unmapFrame_here (v : Nat) :
    (sys full).Triple t (Here none held t d) (act (.unmapFrame d v true))
      fun _ => Here none held t d := by
  refine Sys.Triple.perform Here.stable ?_
  rintro s inv - - ⟨p, f, h⟩
  rcases unmapFrame_mem inv.mem d v with ⟨fails, same⟩ | ⟨pte, ok, mapped, set⟩
  · obtain ⟨inv', guar, h'⟩ := step_unchanged inv h same
    refine ⟨_, false, ?_, inv', guar, fun _ => ⟨p, f, h'⟩⟩
    simp [sys, Kernel.exec, Kernel.setVm, fails]
  · obtain ⟨inv', guar, h'⟩ := step_available inv h set.confined
      (fun w _ page => byteAt_unmapped (page ▸ set.now)) set.bytes
    refine ⟨_, true, ?_, inv', guar, fun _ => ⟨p, _, h'⟩⟩
    simp only [sys, Kernel.exec, Kernel.setVm, ok, ↓reduceIte]
    rw [noteAvailable_eq h]

theorem triple_setAvailability_here (v availability : Nat) :
    (sys full).Triple t (Here none held t d) (act (.setAvailability d v availability))
      fun _ => Here none held t d := by
  refine Sys.Triple.perform Here.stable ?_
  rintro s inv - - ⟨p, f, h⟩
  rcases setAvailability_mem inv.mem d v availability with ⟨fails, same⟩ |
    ⟨old, avail, ok, -, unmapped, set⟩
  · obtain ⟨inv', guar, h'⟩ := step_unchanged inv h same
    refine ⟨_, false, ?_, inv', guar, fun _ => ⟨p, f, h'⟩⟩
    simp [sys, Kernel.exec, Kernel.setVm, fails]
  · by_cases available : availability = 1
    · obtain ⟨inv', guar, h'⟩ := step_available inv h set.confined
        (fun w _ page => byteAt_unmapped (page ▸ set.now)) set.bytes
      refine ⟨_, true, ?_, inv', guar, fun _ => ⟨p, _, h'⟩⟩
      simp only [sys, Kernel.exec, Kernel.setVm, ok, if_pos available]
      rw [noteAvailable_eq h]
    · have bytes : s.shared p = false → ∀ w, UserAddr w → (s.mem.withVm
          (setAvailability s.mem.vm d v availability).2).byteAt d w = s.mem.byteAt d w := by
        intro _ w user
        by_cases page : pageOf w = pageOf v
        · rw [byteAt_unmapped (page ▸ set.now), byteAt_unmapped (page ▸ unmapped)]
        · exact set.bytes w user page
      obtain ⟨inv', guar, h'⟩ := step_same inv h set.confined bytes
      refine ⟨_, true, ?_, inv', guar, fun _ => ⟨p, f, h'⟩⟩
      simp only [sys, Kernel.exec, Kernel.setVm, ok, if_neg available]

/-! ### Accesses -/

/-- A byte of the flat memory and of the directory written together. -/
theorem step_stored (inv : s.Inv full) (h : At none held t d f s p) {mem : Mem} {v : Nat} {b : UInt8}
    (confined : Confined d s.mem mem)
    (bytes : ∀ w, UserAddr w → mem.byteAt d w = if w = v then b else s.mem.byteAt d w) :
    let s' := { s with mem := mem, trace := s.trace ++ [.stored p v b] }
    Kernel.Inv full s' ∧ (sys full).Guarantees t s s' ∧
      At none held t d (Function.update f v b) s' p := by
  have flat : ∀ q, flatOf (s.trace ++ [.stored p v b]) q =
      if q = p then Function.update (flatOf s.trace p) v b else flatOf s.trace q := by
    intro q
    rw [flatOf_concat]
    by_cases same : q = p
    · subst same
      simp [Flat.step]
    · simp [Flat.step, same]
  obtain ⟨inv', guar⟩ := step_mem inv h.thread h.mine confined
    (s.trace ++ [.stored p v b]) (fun q ne => by rw [flat, if_neg ne])
    (fun single => loadsAgree_concat (inv.agree single) (by simp))
  refine ⟨inv', guar, h.thread, h.dir, h.holds, h.owner, fun hs => ?_, fun hs w user => ?_⟩
  · rw [flat, if_pos rfl, h.flat hs]
  · have old := h.shows hs w user
    simp only [reduceCtorEq, ↓reduceIte] at old ⊢
    rw [bytes w user]
    by_cases same : w = v
    · rw [if_pos same, same, Function.update_self]
    · rw [if_neg same, Function.update_of_ne same, old]

/-- A user access that the processor permits goes to a user page of the thread's
directory, and to store not to the zero frame. -/
theorem permitted_spec (inv : s.Inv full) {pd : PageDir} (hd : s.mem.vm.dirs d = some pd) {v a : Nat}
    {write : Bool} (hv : v < virtualAddrEnd) (ok : translate pd v write = some a) :
    ∃ pte, s.mem.vm.abs.space d = some (stateOf pd) ∧ UserAddr v ∧
      stateOf pd (pageOf v) = .mapped pte ∧ a = pte.pageAddr * pageSize + v % pageSize ∧
      (write = true → pte.pageAddr * pageSize ≠ zeroFrame) := by
  obtain ⟨pte, state, us, rw, eq⟩ := translate_spec ok
  have space := abs_space_some hd
  have user : UserPage (pageOf v) := by
    refine ⟨?_, pageOf_lt v⟩
    by_contra kernel
    have := inv.mem.wf.kernel d _ _ space (Nat.not_le.mp kernel)
    rw [state, PageState.mapped.injEq] at this
    simp [this, kernelPte] at us
  refine ⟨pte, space, ⟨hv, user⟩, state, eq, fun hw zero => ?_⟩
  have := inv.mem.zeroReadOnly d _ _ pte space user state zero
  rw [rw hw] at this
  cases this

theorem userAccess_cases (h : At none held t d f s p) (v : Nat) (write : Bool)
    (go : Nat → Nat → Kernel) :
    (∃ present, s.userAccess t v write go = (s, .fault present)) ∨
      ∃ pd a, s.mem.vm.dirs d = some pd ∧ translate pd v write = some a ∧
        s.userAccess t v write go = (go p a, .done) := by
  obtain ⟨pr, hp, rfl⟩ := Option.map_eq_some_iff.mp h.dir
  unfold Kernel.userAccess
  simp only [Kernel.proc, h.thread, hp, Option.bind_some]
  cases hd : s.mem.vm.dirs pr.dir with
  | none => exact .inl ⟨_, rfl⟩
  | some pd =>
      cases ok : translate pd v write with
      | none => exact .inl ⟨faultPresent pd v, by simp only [ok]⟩
      | some a => exact .inr ⟨pd, a, rfl, ok, by simp only [ok]⟩

theorem mod_lt (v : Nat) : v % virtualAddrEnd < virtualAddrEnd := Nat.mod_lt _ (by decide)

theorem triple_load (v : Nat) :
    (sys full).Triple t (Ready t) (act (.load v)) fun _ => Ready t := by
  refine Sys.Triple.perform Ready.stable ?_
  rintro s inv - - ⟨p, d, f, h⟩
  rcases userAccess_cases h (v % virtualAddrEnd) false fun p a => { s with
      trace := s.trace ++ [.loaded p (v % virtualAddrEnd) (s.mem.phys a)] } with
    ⟨present, eq⟩ | ⟨pd, a, hd, ok, eq⟩
  · exact ⟨s, _, eq, inv, guarantees_refl s, fun _ => ⟨p, d, f, h⟩⟩
  obtain ⟨pte, space, user, state, rfl, -⟩ := permitted_spec inv hd (mod_lt v) ok
  have flat : ∀ q b, flatOf (s.trace ++ [.loaded p (v % virtualAddrEnd) b]) q = flatOf s.trace q := by
    intro q b
    rw [flatOf_concat]
    rfl
  have self : Confined d s.mem s.mem :=
    ⟨inv.mem, le_refl _, fun _ _ => rfl, fun _ _ _ _ => rfl⟩
  obtain ⟨inv', guar⟩ := step_mem inv h.thread h.mine self (s.trace ++
      [.loaded p (v % virtualAddrEnd) (s.mem.phys (pte.pageAddr * pageSize +
        v % virtualAddrEnd % pageSize))]) (fun q _ => flat q _) fun single => by
    refine loadsAgree_concat (inv.agree single) fun p' v' b' eq => ?_
    cases eq
    have hs := inv.unshared single p
    have shows := h.shows hs _ user
    simp only [reduceCtorEq, ↓reduceIte] at shows
    rw [h.flat hs, shows, byteAt_of_space space, state]
    rfl
  refine ⟨_, _, eq, inv', guar, fun _ => ⟨p, d, f, h.thread, h.dir, h.holds, h.owner, fun hs => ?_,
    h.shows⟩⟩
  rw [flat]
  exact h.flat hs

theorem triple_store (v : Nat) (b : UInt8) :
    (sys full).Triple t (Ready t) (act (.store v b)) fun _ => Ready t := by
  refine Sys.Triple.perform Ready.stable ?_
  rintro s inv - - ⟨p, d, f, h⟩
  rcases userAccess_cases h (v % virtualAddrEnd) true fun p a => { s with
      mem := s.mem.put a b, trace := s.trace ++ [.stored p (v % virtualAddrEnd) b] } with
    ⟨present, eq⟩ | ⟨pd, a, hd, ok, eq⟩
  · exact ⟨s, _, eq, inv, guarantees_refl s, fun _ => ⟨p, d, f, h⟩⟩
  obtain ⟨pte, space, user, state, rfl, nz⟩ := permitted_spec inv hd (mod_lt v) ok
  obtain ⟨confined, bytes⟩ := inv.mem.put space user state (nz rfl) b
  obtain ⟨inv', guar, h'⟩ := step_stored inv h confined bytes
  exact ⟨_, _, eq, inv', guar, fun _ => ⟨p, d, _, h'⟩⟩

/-- A store into a buffer of the user, where it is admitted. -/
theorem triple_copyOut (whole : full = true) (v : Nat) (b : UInt8) :
    (sys full).Triple t (Here none held t d) (act (.copyOut d v b)) fun _ => Here none held t d := by
  refine Sys.Triple.perform Here.stable ?_
  rintro s inv - admits ⟨p, f, h⟩
  have page : pageOf (v % virtualAddrEnd) = pageOf v := by simp [pageOf]
  have clean : s.mem.Zero d (pageOf (v % virtualAddrEnd)) → b = 0 := by
    rw [page]
    exact admits whole
  cases stored : s.mem.kstore d (v % virtualAddrEnd) b with
  | none =>
      refine ⟨s, false, ?_, inv, guarantees_refl s, fun _ => ⟨p, f, h⟩⟩
      simp [sys, Kernel.exec, Kernel.kstore, stored]
  | some mem =>
      obtain ⟨confined, -, bytes⟩ := kstore_mem inv.mem d _ (mod_lt v) clean stored
      obtain ⟨inv', guar, h'⟩ := step_stored inv h confined bytes
      refine ⟨_, true, ?_, inv', guar, fun _ => ⟨p, _, h'⟩⟩
      simp [sys, Kernel.exec, Kernel.kstore, stored, h.thread]

end OsKernel.Memory
