/-
Every load returns the byte of a private flat memory.

The calls are those of processes with one thread each: user accesses, `fork`,
`exec`, `new_pages`, `remove_pages`, exit and reaping. Each thread takes its steps
one action at a time, in any order with the others.
-/

import OsKernel.Memory.Load
import OsKernel.Memory.Verify

namespace OsKernel.Memory

open OsKernel.Vm Prog Sys

/-- What a thread may do next. -/
inductive Call where
  | load (v : Nat)
  | store (v : Nat) (b : UInt8)
  | fork
  /-- The image is what `elf_load_helper` finds in the file. -/
  | exec (image : Option Image) (name : List UInt8) (args : List (List UInt8))
  | newPages (base : Nat) (len : Int)
  | removePages (base : Nat)
  | vanish
  | reap (p : Nat)

def Call.prog (physFrames : Nat) : Call → Program Unit
  | .load v => Memory.load v
  | .store v b => Memory.store v b
  | .fork => Memory.fork
  | .exec image name args => Memory.exec image name args
  | .newPages base len => Memory.newPages base len physFrames
  | .removePages base => Memory.removePages base
  | .vanish => Memory.vanish
  | .reap p => Memory.reap p

/-! ### The start -/

/-- The kernel after `init_page_dir_manager` and `init_ctrl_blk`: the zero frame is
cleared, and one process with one thread has a fresh directory. The rest of memory
may hold anything. -/
def boot (physFrames : Nat) (oracle : Nat → Bool) (phys : Nat → UInt8) : Option Kernel :=
  match initPageDirManager physFrames (.boot oracle) with
  | (false, _) => none
  | (true, vm) => match constructPageDir vm with
      | (none, _) => none
      | (some d, vm') => some {
          mem := (Mem.mk vm phys).fill zeroFrame (fun _ => 0) |>.withVm vm'
          threadCount := 1
          thread := Function.update (fun _ => none) 0 (some 0)
          procs := Function.update (fun _ => none) 0 (some { dir := d })
          trace := []
          owner := Function.update (fun _ => none) d (some 0)
          shared := fun _ => false }

/-- Nobody has started a call. -/
def Kernel.idle (s : Kernel) : Config Kernel Nat Act Act.Result := ⟨s, fun _ => .ret ()⟩

/-- The memory before there is a directory. -/
theorem inv_cleared {vm : VmState} (wf : vm.abs.Wf) (none : ∀ d, vm.abs.space d = none)
    (phys : Nat → UInt8) : ((Mem.mk vm phys).fill zeroFrame fun _ => 0).Inv := by
  refine ⟨wf, fun d space page pte hd => ?_, fun off hoff => ?_⟩
  · have hd' : vm.abs.space d = some space := hd
    rw [none d] at hd'
    cases hd'
  · simp [Mem.fill, hoff]

/-- A table with one entry, at 0. -/
theorem update_none_eq {α : Type} {x y : α} {q : Nat}
    (h : Function.update (fun _ => none) 0 (some x) q = some y) : q = 0 ∧ y = x := by
  by_cases zero : q = 0
  · subst zero
    rw [Function.update_self, Option.some.injEq] at h
    exact ⟨rfl, h.symm⟩
  · rw [Function.update_of_ne zero] at h
    cases h

/-- What `boot` returns: a directory that shows zeros, of the only process. -/
theorem boot_spec {physFrames : Nat} (fits : physFrames ≤ virtualAddrEnd / pageSize)
    {oracle : Nat → Bool} {phys : Nat → UInt8} {s : Kernel}
    (started : boot physFrames oracle phys = some s) :
    ∃ mem : Mem, mem.Inv ∧ 0 < mem.vm.nextDir ∧ Shows none 0 (fun _ => 0) mem ∧
      s = { mem := mem, threadCount := 1, thread := Function.update (fun _ => none) 0 (some 0),
            procs := Function.update (fun _ => none) 0 (some { dir := 0 }), trace := [],
            owner := Function.update (fun _ => none) 0 (some 0), shared := fun _ => false } := by
  unfold boot at started
  cases init : initPageDirManager physFrames (.boot oracle) with
  | mk ok vm =>
  cases ok with
  | false => simp [init] at started
  | true =>
  have success : (initPageDirManager physFrames (.boot oracle)).1 = true := by rw [init]
  obtain ⟨n, fits', abs⟩ := abs_boot fits success
  rw [init] at abs started
  have inv : ((Mem.mk vm phys).fill zeroFrame fun _ => 0).Inv :=
    inv_cleared (abs ▸ wf_pool fits') (fun d => by rw [abs]) phys
  have first : vm.nextDir = 0 := congrArg Spaces.next abs
  cases made : constructPageDir vm with
  | mk dir vm' =>
  have mem := constructPageDir_mem inv
  have same : ((Mem.mk vm phys).fill zeroFrame fun _ => 0).vm = vm := rfl
  rw [same, made, first] at mem
  rcases mem with ⟨rfl, -⟩ | ⟨rfl, -, confined, next, fresh⟩
  · simp [made] at started
  simp only [made, Option.some.injEq] at started
  refine ⟨_, confined.inv, ?_, fun w user => ?_, started.symm⟩
  · exact Nat.lt_of_lt_of_eq Nat.zero_lt_one next.symm
  · rw [byteAt_of_state (fresh _ user.page)]
    rfl

theorem boot_inv {physFrames : Nat} (fits : physFrames ≤ virtualAddrEnd / pageSize)
    {oracle : Nat → Bool} {phys : Nat → UInt8} {s : Kernel}
    (started : boot physFrames oracle phys = some s) (full : Bool) :
    s.Inv full ∧ ∀ t p, s.thread t = some p → Ready t s := by
  obtain ⟨mem, inv, next, shows, rfl⟩ := boot_spec fits started
  refine ⟨⟨inv, ?_, ?_, ?_, ?_, ?_, ?_, ?_, fun _ _ => rfl, ?_⟩, ?_⟩
  · intro t p h
    obtain ⟨-, rfl⟩ := update_none_eq h
    exact ⟨_, rfl⟩
  · intro p pr h
    obtain ⟨-, rfl⟩ := update_none_eq h
    exact next
  · intro p q pr qr hp hq _
    exact (update_none_eq hp).1.trans (update_none_eq hq).1.symm
  · intro d t q qr ho hq hd
    obtain ⟨rfl, rfl⟩ := update_none_eq ho
    obtain ⟨rfl, -⟩ := update_none_eq hq
    exact ⟨fun p hp => (update_none_eq (x := 0) (q := 0) hp).2,
      fun t' ht' => (update_none_eq ht').1⟩
  · intro d t h
    obtain ⟨rfl, rfl⟩ := update_none_eq h
    exact ⟨next, Nat.zero_lt_one⟩
  · intro n hn
    have : n ≠ 0 := Nat.ne_of_gt hn
    simp [this]
  · intro t t' p h h' _
    exact (update_none_eq h').1.trans (update_none_eq h).1.symm
  · rintro - before p v b after h
    simp at h
  · intro t p h
    obtain ⟨rfl, rfl⟩ := update_none_eq h
    exact ⟨0, 0, fun _ => 0, rfl, rfl, fun _ held => by simp at held, fun _ => rfl,
      fun _ => rfl, fun _ => shows⟩

theorem boot_good {physFrames : Nat} (fits : physFrames ≤ virtualAddrEnd / pageSize)
    {oracle : Nat → Bool} {phys : Nat → UInt8} {s : Kernel}
    (started : boot physFrames oracle phys = some s) (full : Bool) : (sys full).Good s.idle := by
  obtain ⟨inv, ready⟩ := boot_inv fits started full
  refine ⟨inv, fun t live => ?_⟩
  obtain ⟨p, hp⟩ := Option.isSome_iff_exists.mp live
  exact ready t p hp

/-! ### Runs -/

theorem triple_call {full : Bool} (physFrames : Nat) (t : Nat) (call : Call) :
    (sys full).Triple t (Ready t) (call.prog physFrames) fun _ => Ready t := by
  cases call with
  | load v => exact triple_load_call v
  | store v b => exact triple_store_call v b
  | fork => exact triple_fork
  | exec image name args => exact triple_exec image name args
  | newPages base len => exact triple_newPages base len physFrames
  | removePages base => exact triple_removePages base
  | vanish => exact triple_vanish
  | reap p => exact triple_wait 0 p [] (.inl rfl)

/-- One action of the thread that the input names, or the start of its next call. -/
def callStep (physFrames : Nat) (c : Config Kernel Nat Act Act.Result) (i : Nat × Call) :
    Config Kernel Nat Act Act.Result :=
  (sys false).step (Call.prog physFrames) c i

theorem good_callStep {physFrames : Nat} {c : Config Kernel Nat Act Act.Result}
    (good : (sys false).Good c) (i : Nat × Call) : (sys false).Good (callStep physFrames c i) :=
  good.step (triple_call physFrames) (fun _ _ _ _ whole => by cases whole) Kernel.Rely.refl

end OsKernel.Memory
