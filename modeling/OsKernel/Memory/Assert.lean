/-
What the handlers keep and what they may rely on.

`Kernel.Inv` is the invariant of the shared state: the memory is well formed,
every process has a directory of its own, and the thread that owns a directory is
the only one of its process. `Rely` is what no other thread can take away from a
thread: the pages and the bytes of the directories it owns, and the flat memory
of a process with one thread.

`At` and `Building` are the assertions the handlers are verified with: where the
directory of the running process shows its flat memory, and where a directory
under construction shows a given memory; both may except one page that has just
been mapped and is not written yet.

With `full` false the system is the one of single-threaded processes without
stores into user buffers, with `full` true it is the whole, where such a store is
admitted only if it leaves the zero frame clean.
-/

import OsKernel.Memory.Machine

namespace OsKernel.Memory

open OsKernel.Vm

namespace Kernel

/-- No process has the directory. -/
def Unnamed (s : Kernel) (d : Nat) : Prop := ∀ p pr, s.procs p = some pr → pr.dir ≠ d

/-- The thread is the only one of its process. -/
def Alone (s : Kernel) (t : Nat) : Prop :=
  ∀ p t', s.thread t = some p → s.thread t' = some p → t' = t

structure Inv (full : Bool) (s : Kernel) : Prop where
  mem : s.mem.Inv
  proc : ∀ t p, s.thread t = some p → ∃ pr, s.procs p = some pr
  dirs : ∀ p pr, s.procs p = some pr → pr.dir < s.mem.vm.nextDir
  distinct : ∀ p q pr qr, s.procs p = some pr → s.procs q = some qr → pr.dir = qr.dir → p = q
  sole : ∀ d t q qr, s.owner d = some t → s.procs q = some qr → qr.dir = d →
    (∀ p, s.thread t = some p → p = q) ∧ ∀ t', s.thread t' = some q → t' = t
  owners : ∀ d t, s.owner d = some t → d < s.mem.vm.nextDir ∧ t < s.threadCount
  fresh : ∀ n, s.threadCount ≤ n → s.thread n = none ∧ s.procs n = none
  single : ∀ t t' p, s.thread t = some p → s.thread t' = some p → s.shared p = false → t' = t
  unshared : full = false → ∀ p, s.shared p = false
  agree : full = false → LoadsAgree s.trace

/-- What the other threads leave alone. -/
structure Rely (t : Nat) (s s' : Kernel) : Prop where
  thread : s'.thread t = s.thread t
  alone : s.Alone t → s'.Alone t
  dir : ∀ p, s.thread t = some p → (s'.procs p).map Proc.dir = (s.procs p).map Proc.dir
  shared : ∀ p, s.thread t = some p → s'.shared p = s.shared p
  owned : ∀ d, s.owner d = some t → s'.owner d = some t
  space : ∀ d, s.owner d = some t → s'.mem.vm.abs.space d = s.mem.vm.abs.space d
  bytes : ∀ d w, s.owner d = some t → UserAddr w → s'.mem.byteAt d w = s.mem.byteAt d w
  unnamed : ∀ d, s.owner d = some t → s.Unnamed d → s'.Unnamed d
  flat : ∀ p, s.thread t = some p → s.shared p = false → flatOf s'.trace p = flatOf s.trace p

theorem Rely.refl (t : Nat) (s : Kernel) : Rely t s s :=
  ⟨rfl, id, fun _ _ => rfl, fun _ _ => rfl, fun _ h => h, fun _ _ => rfl, fun _ _ _ _ => rfl,
    fun _ _ h => h, fun _ _ _ => rfl⟩

theorem Rely.trans {t : Nat} {s s' s'' : Kernel} (h : Rely t s s') (h' : Rely t s' s'') :
    Rely t s s'' where
  thread := h'.thread.trans h.thread
  alone alone := h'.alone (h.alone alone)
  dir p hp := (h'.dir p (h.thread.trans hp)).trans (h.dir p hp)
  shared p hp := (h'.shared p (h.thread.trans hp)).trans (h.shared p hp)
  owned d hd := h'.owned d (h.owned d hd)
  space d hd := (h'.space d (h.owned d hd)).trans (h.space d hd)
  bytes d w hd user := (h'.bytes d w (h.owned d hd) user).trans (h.bytes d w hd user)
  unnamed d hd none := h'.unnamed d (h.owned d hd) (h.unnamed d hd none)
  flat p hp hs := (h'.flat p (h.thread.trans hp) ((h.shared p hp).trans hs)).trans (h.flat p hp hs)

end Kernel

/-- The directory shows the memory `f`, but for a page that is not written yet and
shall show zeros. -/
def Shows (bad : Option Nat) (d : Nat) (f : Nat → UInt8) (m : Mem) : Prop :=
  ∀ w, UserAddr w → f w = if some (pageOf w) = bad then 0 else m.byteAt d w

/-- The thread's process runs in directory `d` and, unless it has more than one
thread, owns it and shows its flat memory `f` in it. The thread may hold one more
directory, which no process has. -/
structure At (bad held : Option Nat) (t d : Nat) (f : Nat → UInt8) (s : Kernel) (p : Nat) :
    Prop where
  thread : s.thread t = some p
  dir : (s.procs p).map Proc.dir = some d
  holds : ∀ e, held = some e → s.owner e = some t ∧ s.Unnamed e
  owner : s.shared p = false → s.owner d = some t
  flat : s.shared p = false → flatOf s.trace p = f
  shows : s.shared p = false → Shows bad d f s.mem

/-- Where a thread stands between two programs, and in user mode. -/
def Ready (t : Nat) (s : Kernel) : Prop := ∃ p d f, At none none t d f s p

theorem At.of_rely {bad held : Option Nat} {t d p : Nat} {f : Nat → UInt8} {s s' : Kernel}
    (h : At bad held t d f s p) (rely : s.Rely t s') : At bad held t d f s' p := by
  have shared := rely.shared p h.thread
  refine ⟨rely.thread.trans h.thread, (rely.dir p h.thread).trans h.dir, fun e he => ?_,
    fun hs => ?_, fun hs => ?_, fun hs => ?_⟩
  · obtain ⟨owner, unnamed⟩ := h.holds e he
    exact ⟨rely.owned e owner, rely.unnamed e owner unnamed⟩
  all_goals rw [shared] at hs
  · exact rely.owned d (h.owner hs)
  · exact (rely.flat p h.thread hs).trans (h.flat hs)
  · intro w user
    rw [rely.bytes d w (h.owner hs) user]
    exact h.shows hs w user

/-- The system of all threads. -/
def sys (full : Bool) : Sys Kernel Nat Act Act.Result where
  exec := Kernel.exec
  live s t := (s.thread t).isSome
  inv := Kernel.Inv full
  rely t s s' := s.Rely t s'
  ready := Ready
  admits _ a s := full = true → match a with
    | .copyOut d v b => s.mem.Zero d (pageOf v) → b = 0
    | _ => True
  rely_trans := Kernel.Rely.trans
  ready_stable := by
    rintro t s s' ⟨p, d, f, h⟩ rely
    exact ⟨p, d, f, h.of_rely rely⟩

/-! ### Steps that change memory -/

theorem loadsAgree_concat {trace : List Event} {e : Event} (agree : LoadsAgree trace)
    (last : ∀ p v b, e = .loaded p v b → b = flatOf trace p v) : LoadsAgree (trace ++ [e]) := by
  intro before p v b after h
  rcases List.eq_nil_or_concat after with rfl | ⟨after', x, rfl⟩
  · obtain ⟨rfl, he⟩ := List.append_inj' h rfl
    simp only [List.cons.injEq, and_true] at he
    exact last p v b he
  · rw [List.concat_eq_append, ← List.cons_append, ← List.append_assoc] at h
    obtain ⟨h, -⟩ := List.append_inj' h rfl
    exact agree before p v b after' h

/-- The thread may change the directory: it owns it, or runs in it. -/
def Kernel.Mine (s : Kernel) (t d : Nat) : Prop :=
  s.owner d = some t ∨ ∃ p, s.thread t = some p ∧ (s.procs p).map Proc.dir = some d

theorem At.mine {bad held : Option Nat} {t d p : Nat} {f : Nat → UInt8} {s : Kernel}
    (h : At bad held t d f s p) : s.Mine t d :=
  .inr ⟨p, h.thread, h.dir⟩

variable {full : Bool} {s : Kernel} {t : Nat}

theorem owner_ne_of_mine (inv : s.Inv full) {d t' : Nat} (mine : s.Mine t d) (ne : t' ≠ t) :
    s.owner d ≠ some t' := by
  intro owner
  rcases mine with own | ⟨p, ht, hd⟩
  · exact ne (Option.some.inj (owner.symm.trans own))
  · obtain ⟨pr, hp, rfl⟩ := Option.map_eq_some_iff.mp hd
    exact ne ((inv.sole _ t' p pr owner hp rfl).2 t ht).symm

/-- A thread that changes one directory of its own, and events of its own process
only, keeps the invariant and disturbs no other thread. -/
theorem step_mem (inv : s.Inv full) {d p : Nat} (ht : s.thread t = some p) (mine : s.Mine t d)
    {mem : Mem} (confined : Confined d s.mem mem) (trace : List Event)
    (flat : ∀ q, q ≠ p → flatOf trace q = flatOf s.trace q)
    (agree : full = false → LoadsAgree trace) :
    Kernel.Inv full { s with mem := mem, trace := trace } ∧
      (sys full).Guarantees t s { s with mem := mem, trace := trace } := by
  refine ⟨{ inv with
    mem := confined.inv
    dirs := fun q qr hq => Nat.lt_of_lt_of_le (inv.dirs q qr hq) confined.next
    owners := fun e u he => ⟨Nat.lt_of_lt_of_le (inv.owners e u he).1 confined.next,
      (inv.owners e u he).2⟩
    agree := agree }, fun t' ne live => ⟨fun _ => ?_, fun dead => ?_⟩⟩
  · have other : ∀ e, s.owner e = some t' → e ≠ d := by
      rintro e he rfl
      exact owner_ne_of_mine inv mine ne he
    refine ⟨rfl, id, fun _ _ => rfl, fun _ _ => rfl, fun _ h => h,
      fun e he => confined.space e (other e he), fun e w he => confined.bytes e w (other e he),
      fun _ _ h => h, fun q hq hs => flat q ?_⟩
    rintro rfl
    exact ne (inv.single t t' q ht hq hs)
  · exact absurd live (by simpa [sys] using dead)

end OsKernel.Memory
