/-
One page at a time: what the actions of a call do to a page of the directory it
works in.

An action either fails and leaves every page as it was (`Same`) or puts its page into
a new state (`Put`). Frames move between the pool and the directory only; where a page
is unmapped this needs the node that `free_frame` asks for, so it is stated under
`exact`, which every system that admits only actions with `Frees` may assume.
-/

import OsKernel.Syscall.Rules

namespace OsKernel.Syscall

open OsKernel.Vm OsKernel.Memory Prog Sys

/-- Every page of the directory is as it was. -/
structure Same (d : Nat) (m m' : Mem) : Prop where
  within : Within d m.vm m'.vm
  state : ∀ q, m'.state d q = m.state d q
  phys : m'.phys = m.phys

/-- One page of the directory was put into a new state. -/
structure Put (exact : Prop) (d page : Nat) (state : PageState) (m m' : Mem) : Prop where
  apart : Apart d m.vm m'.vm
  within : exact → Within d m.vm m'.vm
  now : m'.state d page = some state
  rest : ∀ q, q ≠ page → m'.state d q = m.state d q
  phys : m'.phys = m.phys

variable {exact : Prop} {d page : Nat} {m m' m'' : Mem}

theorem Same.trans (h : Same d m m') (h' : Same d m' m'') : Same d m m'' :=
  ⟨h.within.trans h'.within, fun q => (h'.state q).trans (h.state q), h'.phys.trans h.phys⟩

theorem Same.put {state : PageState} (h : Same d m m') (h' : Put exact d page state m' m'') :
    Put exact d page state m m'' :=
  ⟨h.within.toApart.trans h'.apart, fun e => h.within.trans (h'.within e), h'.now,
    fun q ne => (h'.rest q ne).trans (h.state q), h'.phys.trans h.phys⟩

theorem Put.same {state : PageState} (h : Put exact d page state m m') (h' : Same d m' m'') :
    Put exact d page state m m'' :=
  ⟨h.apart.trans h'.within.toApart, fun e => (h.within e).trans h'.within,
    (h'.state page).trans h.now, fun q ne => (h'.state q).trans (h.rest q ne), h'.phys.trans h.phys⟩

/-- A page put into one state after another. -/
theorem Put.put {state state' : PageState} (h : Put exact d page state m m')
    (h' : Put exact d page state' m' m'') : Put exact d page state' m m'' :=
  ⟨h.apart.trans h'.apart, fun e => (h.within e).trans (h'.within e), h'.now,
    fun q ne => (h'.rest q ne).trans (h.rest q ne), h'.phys.trans h.phys⟩

/-- A page put back. -/
theorem Put.back {state : PageState} (h : Put exact d page state m m')
    (old : m.state d page = some state) (q : Nat) : m'.state d q = m.state d q := by
  by_cases same : q = page
  · rw [same, h.now, old]
  · exact h.rest q same

theorem state_of_abs {vm : VmState} (abs : vm.abs = m.vm.abs) (q : Nat) :
    (m.withVm vm).state d q = m.state d q := by
  have : (m.withVm vm).vm.abs = m.vm.abs := abs
  rw [Mem.state, Mem.state, this]

/-- The states of the pages after one of them was set. -/
theorem state_of_update {vm : VmState} {space : Nat → PageState} {state : PageState}
    (hd : m.vm.abs.space d = some space)
    (abs : vm.abs.space =
      Function.update m.vm.abs.space d (some (Function.update space page state))) :
    (m.withVm vm).state d page = some state ∧
      ∀ q, q ≠ page → (m.withVm vm).state d q = m.state d q := by
  have here : (m.withVm vm).vm.abs.space d = some (Function.update space page state) := by
    change vm.abs.space d = _
    rw [abs, Function.update_self]
  refine ⟨by rw [state_of_space here, Function.update_self], fun q ne => ?_⟩
  rw [state_of_space here, Function.update_of_ne ne, state_of_space hd]

/-- The contents of the frames of the user that were not in the pool are as before. -/
def KeepsFrames (m m' : Mem) : Prop :=
  ∀ n off, off < pageSize → userPageStart ≤ n * pageSize → n * pageSize ∉ m.vm.allocList →
    m'.phys (n * pageSize + off) = m.phys (n * pageSize + off)

/-- A directory with the same pages shows the same bytes. -/
theorem KeepsFrames.bytes (h : KeepsFrames m m') (wf : m.vm.abs.Wf) {w : Nat}
    (dir : m'.vm.dirs d = m.vm.dirs d) (user : UserAddr w) : m'.byteAt d w = m.byteAt d w := by
  have space : m'.vm.abs.space d = m.vm.abs.space d := by simp only [VmState.abs, dir]
  cases hd : m.vm.abs.space d with
  | none => rw [Mem.byteAt, Mem.byteAt, space, hd]
  | some space' =>
      rw [byteAt_of_space (space.trans hd), byteAt_of_space hd]
      cases state : space' (pageOf w) with
      | unmapped avail => rfl
      | mapped pte =>
          have maps := maps_of_state hd user.page state
          refine h _ _ (off_lt w) (wf.user _ _ _ maps) fun pool => ?_
          exact wf.unmapped _ _ _ maps (wf.pool _ pool).2.2 pool

/-! ### What the functions do -/

section
variable (wf : m.vm.abs.Wf) (v n : Nat)

include wf

theorem mapNewFrame_put :
    ((mapNewFrame m.vm d v).1 = false ∧ Same d m (m.withVm (mapNewFrame m.vm d v).2)) ∨
      ∃ avail pte, (mapNewFrame m.vm d v).1 = true ∧ UserPage (pageOf v) ∧
        m.state d (pageOf v) = some (.unmapped avail) ∧ pte.us = true ∧ pte.rw = .readWrite ∧
        pte.pageAddr * pageSize ∈ m.vm.allocList ∧ pte.pageAddr * pageSize ≠ zeroFrame ∧
        Put True d (pageOf v) (.mapped pte) m (m.withVm (mapNewFrame m.vm d v).2) := by
  have within := within_mapNewFrame wf d v
  rcases mapNewFrame_spec m.vm d v with ⟨fails, abs⟩ |
    ⟨space, frame, rest, avail, ok, hd, hp, state, free, abs⟩
  · exact .inl ⟨fails, within, state_of_abs abs, rfl⟩
  have mem : frame ∈ m.vm.abs.free := free ▸ List.mem_cons_self
  obtain ⟨aligned, -, nz⟩ := wf.pool frame mem
  have frame_eq : (newFramePte frame).pageAddr * pageSize = frame := by
    simp [newFramePte, Nat.div_mul_cancel aligned]
  obtain ⟨now, others⟩ := state_of_update hd (congrArg Spaces.space abs)
  refine .inr ⟨avail, newFramePte frame, ok, hp, by rw [state_of_space hd, state], rfl, rfl,
    by rw [frame_eq]; exact mem, by rwa [frame_eq],
    ⟨within.toApart, fun _ => within, now, others, rfl⟩⟩

theorem mapZeroFrame_put :
    ((mapZeroFrame m.vm d v).1 = false ∧ Same d m (m.withVm (mapZeroFrame m.vm d v).2)) ∨
      ∃ avail, (mapZeroFrame m.vm d v).1 = true ∧ UserPage (pageOf v) ∧
        m.state d (pageOf v) = some (.unmapped avail) ∧
        Put True d (pageOf v) (.mapped zeroFramePte) m (m.withVm (mapZeroFrame m.vm d v).2) := by
  have within := within_mapZeroFrame wf d v
  rcases mapZeroFrame_spec m.vm d v with ⟨fails, abs⟩ | ⟨space, avail, ok, hd, hp, state, abs⟩
  · exact .inl ⟨fails, within, state_of_abs abs, rfl⟩
  obtain ⟨now, others⟩ := state_of_update hd (congrArg Spaces.space abs)
  exact .inr ⟨avail, ok, hp, by rw [state_of_space hd, state],
    ⟨within.toApart, fun _ => within, now, others, rfl⟩⟩

theorem setAccess_put :
    ((setAccess m.vm d v n).1 = false ∧ Same d m (m.withVm (setAccess m.vm d v n).2)) ∨
      ∃ pte rw, (setAccess m.vm d v n).1 = true ∧ UserPage (pageOf v) ∧
        m.state d (pageOf v) = some (.mapped pte) ∧ Access.ofNat? n = some rw ∧
        Put True d (pageOf v) (.mapped { pte with rw := rw }) m
          (m.withVm (setAccess m.vm d v n).2) := by
  have within := within_setAccess wf d v n
  rcases setAccess_spec m.vm d v n with ⟨fails, abs⟩ | ⟨space, pte, rw, ok, hd, hp, state, bit, abs⟩
  · exact .inl ⟨fails, within, state_of_abs abs, rfl⟩
  obtain ⟨now, others⟩ := state_of_update hd (congrArg Spaces.space abs)
  exact .inr ⟨pte, rw, ok, hp, by rw [state_of_space hd, state], bit,
    ⟨within.toApart, fun _ => within, now, others, rfl⟩⟩

theorem setAvailability_put :
    ((setAvailability m.vm d v n).1 = false ∧
        Same d m (m.withVm (setAvailability m.vm d v n).2)) ∨
      ∃ old avail, (setAvailability m.vm d v n).1 = true ∧ UserPage (pageOf v) ∧
        m.state d (pageOf v) = some (.unmapped old) ∧ Availability.ofNat? n = some avail ∧
        Put True d (pageOf v) (.unmapped avail) m (m.withVm (setAvailability m.vm d v n).2) := by
  have within := within_setAvailability wf d v n
  rcases setAvailability_spec m.vm d v n with ⟨fails, abs⟩ |
    ⟨space, old, avail, ok, hd, hp, state, bits, abs⟩
  · exact .inl ⟨fails, within, state_of_abs abs, rfl⟩
  obtain ⟨now, others⟩ := state_of_update hd (congrArg Spaces.space abs)
  exact .inr ⟨old, avail, ok, hp, by rw [state_of_space hd, state], bits,
    ⟨within.toApart, fun _ => within, now, others, rfl⟩⟩

/-- `unmap_frame` of a page that is mapped does not fail. -/
theorem unmapFrame_put {pte : Pte} (hp : UserPage (pageOf v))
    (mapped : m.state d (pageOf v) = some (.mapped pte))
    (frees : exact → UnmapFrees m.vm d v) :
    (unmapFrame m.vm d v).1 = true ∧ (unmapFrame m.vm d v).2.Tabled d v ∧
      Put exact d (pageOf v) (.unmapped .available) m (m.withVm (unmapFrame m.vm d v).2) := by
  obtain ⟨space, hd, state⟩ := Option.map_eq_some_iff.mp mapped
  obtain ⟨vm', -, -, -, abs, ⟨pd, dir, table⟩, -, eq⟩ := unmapFrame_mapped hd hp state
  have space' : (unmapFrame m.vm d v).2.abs.space = Function.update m.vm.abs.space d
      (some (Function.update space (pageOf v) (.unmapped .available))) := by
    rw [eq, freeFrame_space, abs]
    rfl
  obtain ⟨now, others⟩ := state_of_update hd space'
  refine ⟨by rw [eq], ⟨pd, by rw [eq]; simpa using dir, table⟩, ?_⟩
  exact ⟨⟨wf.unmapFrame d v, fun e ne => unmapFrame_dirs m.vm v ne, unmapFrame_next m.vm d v⟩,
    fun e => within_unmapFrame wf d v (frees e), now, others, rfl⟩

omit wf in
/-- `set_availability` of a page that has a page table does not fail. -/
theorem setAvailability_sure {old avail : Availability} (hp : UserPage (pageOf v))
    (state : m.state d (pageOf v) = some (.unmapped old)) (table : m.vm.Tabled d v)
    (bits : Availability.ofNat? n = some avail) : (setAvailability m.vm d v n).1 = true := by
  obtain ⟨space, hd, state⟩ := Option.map_eq_some_iff.mp state
  obtain ⟨pd, eq, -⟩ := setAvailability_tabled hd hp state table bits
  rw [eq]

end

/-! ### The actions of a program -/

section
variable {last : Prop} {t : Nat} {s₀ : Kernel}

/-- A triple may be proved for one memory at a time. -/
theorem triple_at {α : Type} {P : Mem → Prop} {p : Program α} {Q : α → Kernel → Prop}
    (each : ∀ m, P m → (free₀ last exact t).Triple () (OnMem s₀ (Eq m)) p Q) :
    (free₀ last exact t).Triple () (OnMem s₀ P) p Q :=
  fun s inv live pre => each s.mem pre.2 s inv live ⟨pre.1, rfl⟩

theorem triple_setAvailability (m : Mem) (d v n : Nat) :
    (free₀ last exact t).Triple () (OnMem s₀ (Eq m)) (act (.setAvailability d v n)) fun r => OnMem s₀
      fun m' => r = (setAvailability m.vm d v n).1 ∧
        m' = m.withVm (setAvailability m.vm d v n).2 := by
  refine triple_mem (.setAvailability d v n) trivial fun s _ eq => ?_
  obtain ⟨-, mem, result⟩ := exec_setAvailability t s d v n
  rw [eq]
  exact ⟨result, mem⟩

theorem triple_unmapFrame (m : Mem) (d v : Nat) (released : Bool) :
    (free₀ last exact t).Triple () (OnMem s₀ (Eq m)) (act (.unmapFrame d v released))
      fun r => OnMem s₀ fun m' => (exact → UnmapFrees m.vm d v) ∧ r = (unmapFrame m.vm d v).1 ∧
        m' = m.withVm (unmapFrame m.vm d v).2 := by
  refine triple_mem (.unmapFrame d v released) trivial fun s admitted eq => ?_
  obtain ⟨-, mem, result⟩ := exec_unmapFrame t s d v released
  rw [eq]
  exact ⟨admitted, result, mem⟩

/-- A question about memory. -/
theorem triple_ask (a : Act) (onMemory : OnMemory a) (answer : Mem → a.Result)
    (reads : ∀ s, Kernel.exec t a s = (s, answer s.mem)) (m : Mem) :
    (free₀ last exact t).Triple () (OnMem s₀ (Eq m)) (act a) fun r => OnMem s₀
      fun m' => r = answer m ∧ m = m' := by
  refine triple_mem a onMemory ?_
  rintro s - rfl
  rw [reads]
  exact ⟨rfl, rfl⟩

theorem triple_askPage (m : Mem) (d v : Nat) :
    (free₀ last exact t).Triple () (OnMem s₀ (Eq m)) (act (.checkUserPage d v)) fun r => OnMem s₀
      fun m' => r = checkUserPage m.vm d v ∧ m = m' :=
  triple_ask (.checkUserPage d v) trivial (fun m => checkUserPage m.vm d v) (fun _ => rfl) m

theorem triple_askAvailability (m : Mem) (d v : Nat) :
    (free₀ last exact t).Triple () (OnMem s₀ (Eq m)) (act (.getAvailability d v)) fun r => OnMem s₀
      fun m' => r = getAvailability m.vm d v ∧ m = m' :=
  triple_ask (.getAvailability d v) trivial (fun m => getAvailability m.vm d v) (fun _ => rfl) m

theorem triple_askAccess (m : Mem) (d v : Nat) :
    (free₀ last exact t).Triple () (OnMem s₀ (Eq m)) (act (.getAccess d v)) fun r => OnMem s₀
      fun m' => r = getAccess m.vm d v ∧ m = m' :=
  triple_ask (.getAccess d v) trivial (fun m => getAccess m.vm d v) (fun _ => rfl) m

theorem triple_mapZeroFrame (m : Mem) (d v : Nat) :
    (free₀ last exact t).Triple () (OnMem s₀ (Eq m)) (act (.mapZeroFrame d v)) fun r => OnMem s₀
      fun m' => r = (mapZeroFrame m.vm d v).1 ∧ m' = m.withVm (mapZeroFrame m.vm d v).2 := by
  refine triple_mem (.mapZeroFrame d v) trivial ?_
  rintro s - rfl
  exact ⟨rfl, rfl⟩

theorem triple_mapNewFrame (m : Mem) (d v : Nat) :
    (free₀ last exact t).Triple () (OnMem s₀ (Eq m)) (act (.mapNewFrame d v)) fun r => OnMem s₀
      fun m' => r = (mapNewFrame m.vm d v).1 ∧ m' = m.withVm (mapNewFrame m.vm d v).2 := by
  refine triple_mem (.mapNewFrame d v) trivial ?_
  rintro s - rfl
  exact ⟨rfl, rfl⟩

theorem triple_setAccess (m : Mem) (d v n : Nat) :
    (free₀ last exact t).Triple () (OnMem s₀ (Eq m)) (act (.setAccess d v n)) fun r => OnMem s₀
      fun m' => r = (setAccess m.vm d v n).1 ∧ m' = m.withVm (setAccess m.vm d v n).2 := by
  refine triple_mem (.setAccess d v n) trivial ?_
  rintro s - rfl
  exact ⟨rfl, rfl⟩

end

end OsKernel.Syscall
