/-
One rule for each action that changes which processes, threads and directories
there are.

A directory is held from its construction, or from the moment its process is
detached, until it is destructed or given to a process. What a thread holds no
other thread and no process has, so it may be changed and given away freely.
-/

import OsKernel.Memory.Rules

namespace OsKernel.Memory

open OsKernel.Vm

variable {full : Bool} {t d : Nat} {bad held : Option Nat} {s : Kernel} {p : Nat}
  {f : Nat → UInt8}

/-- A step that changes neither memory nor the trace, and nothing that another
live thread relies on. -/
theorem rely_of_same {t' : Nat} {s' : Kernel} (mem : s'.mem = s.mem)
    (flat : ∀ q, s.thread t' = some q → s.shared q = false → flatOf s'.trace q = flatOf s.trace q)
    (thread : s'.thread t' = s.thread t') (alone : s.Alone t' → s'.Alone t')
    (dir : ∀ q, s.thread t' = some q → (s'.procs q).map Proc.dir = (s.procs q).map Proc.dir)
    (shared : ∀ q, s.thread t' = some q → s'.shared q = s.shared q)
    (owned : ∀ e, s.owner e = some t' → s'.owner e = some t')
    (unnamed : ∀ e, s.owner e = some t' → s.Unnamed e → s'.Unnamed e) : s.Rely t' s' :=
  ⟨thread, alone, dir, shared, owned, fun _ _ => by rw [mem], fun _ _ _ _ => by rw [mem], unnamed,
    flat⟩

/-! ### The end of a thread -/

/-- A thread is gone. Its PCB names the directory it ran in or, if it was alone, a
directory it held. -/
theorem step_vanish (inv : s.Inv full) (ht : s.thread t = some p) {pr : Proc}
    (hp : s.procs p = some pr) (bound : d < s.mem.vm.nextDir)
    (free : ∀ q qr, q ≠ p → s.procs q = some qr → qr.dir ≠ d)
    (mine : pr.dir = d ∨ s.Alone t ∧ s.owner d = some t) :
    let s' := { s with thread := Function.update s.thread t none,
                       procs := Function.update s.procs p (some { pr with dir := d }) }
    Kernel.Inv full s' ∧ (sys full).Guarantees t s s' := by
  intro s'
  have other : ∀ t', t' ≠ t → s'.thread t' = s.thread t' := fun t' ne =>
    Function.update_of_ne ne _ _
  have back : ∀ t' q, s'.thread t' = some q → t' ≠ t ∧ s.thread t' = some q := by
    intro t' q h
    have ne : t' ≠ t := by rintro rfl; simp [s'] at h
    exact ⟨ne, (other t' ne).symm.trans h⟩
  have procs : ∀ q qr, s'.procs q = some qr → (q = p ∧ qr = { pr with dir := d }) ∨
      (q ≠ p ∧ s.procs q = some qr) := by
    intro q qr hq
    by_cases same : q = p
    · subst same
      simp only [s', Function.update_self, Option.some.injEq] at hq
      exact .inl ⟨rfl, hq.symm⟩
    · exact .inr ⟨same, by simpa [s', same] using hq⟩
  have stays : ∀ t', t' ≠ t → s.thread t' = some p → pr.dir = d := by
    rintro t' ne h
    rcases mine with h' | ⟨alone, -⟩
    · exact h'
    · exact absurd (alone p t' ht h) ne
  refine ⟨⟨inv.mem, ?_, ?_, ?_, ?_, inv.owners, ?_, ?_, inv.unshared, inv.agree⟩, ?_⟩
  · intro t' q h
    obtain ⟨qr, hq⟩ := inv.proc t' q (back t' q h).2
    by_cases same : q = p
    · exact ⟨_, by simp [s', same]; rfl⟩
    · exact ⟨qr, by simpa [s', same] using hq⟩
  · intro q qr hq
    rcases procs q qr hq with ⟨-, rfl⟩ | ⟨-, hq⟩
    · exact bound
    · exact inv.dirs q qr hq
  · intro q q' qr qr' hq hq' same
    rcases procs q qr hq with ⟨rfl, rfl⟩ | ⟨ne, old⟩ <;>
      rcases procs q' qr' hq' with ⟨rfl, rfl⟩ | ⟨ne', old'⟩
    · rfl
    · exact absurd same.symm (free q' qr' ne' old')
    · exact absurd same (free q qr ne old)
    · exact inv.distinct q q' qr qr' old old' same
  · intro e u q qr owner hq dir
    rcases procs q qr hq with ⟨rfl, rfl⟩ | ⟨ne, hq⟩
    · dsimp only at dir
      refine ⟨fun q' hu => ?_, fun t' h' => ?_⟩
      · obtain ⟨ne, hu⟩ := back u q' hu
        rcases mine with same | ⟨alone, own⟩
        · exact (inv.sole e u q pr owner hp (same.trans dir)).1 q' hu
        · rw [dir, owner] at own
          exact absurd (Option.some.inj own) ne
      · obtain ⟨ne, h'⟩ := back t' q h'
        exact (inv.sole e u q pr owner hp ((stays t' ne h').trans dir)).2 t' h'
    · obtain ⟨home, only⟩ := inv.sole e u q qr owner hq dir
      exact ⟨fun q' hu => home q' (back u q' hu).2, fun t' h' => only t' (back t' q h').2⟩
  · intro n hn
    obtain ⟨hthread, hproc⟩ := inv.fresh n hn
    have ne : n ≠ t := by rintro rfl; rw [ht] at hthread; cases hthread
    have ne' : n ≠ p := by rintro rfl; rw [hp] at hproc; cases hproc
    exact ⟨(other n ne).trans hthread, by simpa [s', ne'] using hproc⟩
  · intro t₁ t₂ q h₁ h₂ hs
    exact inv.single t₁ t₂ q (back t₁ q h₁).2 (back t₂ q h₂).2 hs
  · intro t' ne live
    refine ⟨fun _ => ?_, fun dead => ?_⟩
    · refine rely_of_same rfl (fun _ _ _ => rfl) (other t' ne) ?_ ?_ (fun _ _ => rfl)
        (fun _ h => h) ?_
      · intro alone q t'' h h''
        exact alone q t'' (back t' q h).2 (back t'' q h'').2
      · intro q h
        by_cases same : q = p
        · subst same
          simp [s', hp, stays t' ne h]
        · simp [s', same]
      · intro e owner unnamed q qr hq
        rcases procs q qr hq with ⟨rfl, rfl⟩ | ⟨-, hq⟩
        · rcases mine with same | ⟨-, own⟩
          · exact same ▸ unnamed q pr hp
          · rintro rfl
            dsimp only at owner
            rw [own] at owner
            exact ne (Option.some.inj owner).symm
        · exact unnamed q qr hq
    · simp only [sys, other t' ne] at live dead
      simp [dead] at live

theorem triple_vanish_here {Q : Unit → Kernel → Prop} :
    (sys full).Triple t (Here bad held t d) (act (.vanish d)) Q := by
  refine Sys.Triple.perform Here.stable ?_
  rintro s inv - - ⟨p, f, h⟩
  obtain ⟨pr, hp, rfl⟩ := Option.map_eq_some_iff.mp h.dir
  obtain ⟨inv', guar⟩ := step_vanish inv h.thread hp (inv.dirs p pr hp)
    (fun q qr ne hq same => ne (inv.distinct q p qr pr hq hp same)) (.inl rfl)
  refine ⟨_, (), ?_, inv', guar, fun live => ?_⟩
  · simp [sys, Kernel.exec, Kernel.proc, h.thread, hp]
  · simp [sys] at live

/-! ### PCBs -/

/-- The records of allocations are nothing that anyone relies on. -/
theorem triple_setAllocations (allocs : List (Nat × Int)) :
    (sys full).Triple t (Here bad held t d) (act (.setAllocations allocs))
      fun _ => Here bad held t d := by
  refine Sys.Triple.perform Here.stable ?_
  rintro s inv - - ⟨p, f, h⟩
  obtain ⟨pr, hp, rfl⟩ := Option.map_eq_some_iff.mp h.dir
  set s' := { s with procs := Function.update s.procs p (some { pr with allocs := allocs }) }
    with hs'
  have procs : ∀ q, (s'.procs q).map Proc.dir = (s.procs q).map Proc.dir := by
    intro q
    by_cases same : q = p
    · simp [hs', same, hp]
    · simp [hs', same]
  have back : ∀ q qr, s'.procs q = some qr → ∃ qr', s.procs q = some qr' ∧ qr'.dir = qr.dir := by
    intro q qr hq
    have := procs q
    rw [hq] at this
    exact Option.map_eq_some_iff.mp this.symm
  have unnamed : ∀ e, s.Unnamed e → s'.Unnamed e := by
    intro e h q qr hq
    obtain ⟨qr', hq', same⟩ := back q qr hq
    exact same ▸ h q qr' hq'
  refine ⟨s', (), by simp [sys, Kernel.exec, Kernel.proc, h.thread, hp, hs'], ?_, ?_, fun _ => ?_⟩
  · refine ⟨inv.mem, ?_, ?_, ?_, ?_, inv.owners, ?_, inv.single, inv.unshared, inv.agree⟩
    · intro t' q h'
      obtain ⟨qr, hq⟩ := inv.proc t' q h'
      have := procs q
      rw [hq] at this
      obtain ⟨qr', hq', -⟩ := Option.map_eq_some_iff.mp this
      exact ⟨qr', hq'⟩
    · intro q qr hq
      obtain ⟨qr', hq', same⟩ := back q qr hq
      exact same ▸ inv.dirs q qr' hq'
    · intro q q' qr qr' hq hq' same
      obtain ⟨r, hr, e⟩ := back q qr hq
      obtain ⟨r', hr', e'⟩ := back q' qr' hq'
      exact inv.distinct q q' r r' hr hr' (by rw [e, e', same])
    · intro e u q qr owner hq dir
      obtain ⟨r, hr, same⟩ := back q qr hq
      exact inv.sole e u q r owner hr (same.trans dir)
    · intro n hn
      obtain ⟨hthread, hproc⟩ := inv.fresh n hn
      refine ⟨hthread, ?_⟩
      have := procs n
      rw [hproc] at this
      simpa using this
  · intro t' _ live
    refine ⟨fun _ => rely_of_same rfl (fun _ _ _ => rfl) rfl id (fun q _ => procs q)
      (fun _ _ => rfl) (fun _ h => h) (fun e _ h => unnamed e h), fun dead => ?_⟩
    exact absurd live (by simpa [sys] using dead)
  · refine ⟨p, f, h.thread, (procs p).trans h.dir, fun e he => ?_, h.owner, h.flat, h.shows⟩
    exact ⟨(h.holds e he).1, unnamed e (h.holds e he).2⟩

/-! ### Threads -/

theorem triple_killSiblings :
    (sys full).Triple t (Ready t) (act .killSiblings) fun _ => Ready t := by
  refine Sys.Triple.perform Ready.stable ?_
  rintro s inv - - ⟨p, d, f, h⟩
  set s' := { s with thread := fun t' => if t' ≠ t ∧ s.thread t' = s.thread t then none
                                         else s.thread t' } with hs'
  have back : ∀ t' q, s'.thread t' = some q → s.thread t' = some q := by
    intro t' q h'
    simp only [hs'] at h'
    split at h'
    · cases h'
    · exact h'
  refine ⟨s', (), rfl, ?_, ?_, fun _ => ⟨p, d, f, ?_, h.dir, h.holds, h.owner, h.flat, h.shows⟩⟩
  · refine ⟨inv.mem, fun t' q h' => inv.proc t' q (back t' q h'), inv.dirs, inv.distinct, ?_,
      inv.owners, ?_, ?_, inv.unshared, inv.agree⟩
    · intro e u q qr owner hq dir
      obtain ⟨home, only⟩ := inv.sole e u q qr owner hq dir
      exact ⟨fun q' hu => home q' (back u q' hu), fun t' h' => only t' (back t' q h')⟩
    · intro n hn
      refine ⟨?_, (inv.fresh n hn).2⟩
      simp [hs', (inv.fresh n hn).1]
    · intro t₁ t₂ q h₁ h₂ hs
      exact inv.single t₁ t₂ q (back t₁ q h₁) (back t₂ q h₂) hs
  · intro t' ne live
    obtain ⟨q, hq⟩ := Option.isSome_iff_exists.mp live
    have same : s'.thread t' = s.thread t' := hq.trans (back t' q hq).symm
    refine ⟨fun _ => rely_of_same rfl (fun _ _ _ => rfl) same
      (fun alone q' t'' h' h'' => alone q' t'' (back t' q' h') (back t'' q' h''))
      (fun _ _ => rfl) (fun _ _ => rfl) (fun _ h => h) (fun _ _ h => h), fun dead => ?_⟩
    simp only [sys] at dead
    rw [← same, hq] at dead
    cases dead
  · simp only [hs']
    rw [if_neg (by simp), h.thread]

/-- A second thread: from now on nobody owns the directory. -/
theorem triple_newThread (whole : full = true) :
    (sys full).Triple t (Ready t) (act .newThread) fun _ => Ready t := by
  refine Sys.Triple.perform Ready.stable ?_
  rintro s inv - - ⟨p, d, f, h⟩
  obtain ⟨pr, hp, rfl⟩ := Option.map_eq_some_iff.mp h.dir
  set s' := { s with threadCount := s.threadCount + 1,
                     thread := Function.update s.thread s.threadCount (some p),
                     owner := Function.update s.owner pr.dir none,
                     shared := Function.update s.shared p true } with hs'
  have new : ∀ t', t' ≠ s.threadCount → s'.thread t' = s.thread t' := fun t' ne =>
    Function.update_of_ne ne _ _
  have old : ∀ t' q, s.thread t' = some q → t' ≠ s.threadCount := by
    rintro t' q h' rfl
    rw [(inv.fresh _ (le_refl _)).1] at h'
    cases h'
  have threads : ∀ t' q, s'.thread t' = some q → (t' = s.threadCount ∧ q = p) ∨
      s.thread t' = some q := by
    intro t' q h'
    by_cases same : t' = s.threadCount
    · subst same
      simp only [hs', Function.update_self, Option.some.injEq] at h'
      exact .inl ⟨rfl, h'.symm⟩
    · exact .inr ((new t' same).symm.trans h')
  have owners : ∀ e u, s'.owner e = some u → e ≠ pr.dir ∧ s.owner e = some u := by
    intro e u he
    have ne : e ≠ pr.dir := by rintro rfl; simp [hs'] at he
    exact ⟨ne, by simpa [hs', ne] using he⟩
  refine ⟨s', (), by simp [sys, Kernel.exec, Kernel.proc, h.thread, hp, hs'], ?_, ?_, fun _ => ?_⟩
  · refine ⟨inv.mem, ?_, inv.dirs, inv.distinct, ?_, ?_, ?_, ?_, ?_, ?_⟩
    · intro t' q h'
      rcases threads t' q h' with ⟨-, rfl⟩ | h'
      · exact ⟨pr, hp⟩
      · exact inv.proc t' q h'
    · intro e u q qr owner hq dir
      obtain ⟨ne, before⟩ := owners e u owner
      obtain ⟨home, only⟩ := inv.sole e u q qr before hq dir
      have ne' : q ≠ p := by
        rintro rfl
        rw [hp] at hq
        cases hq
        exact ne dir.symm
      refine ⟨fun q' hu => ?_, fun t' h' => ?_⟩
      · rcases threads u q' hu with ⟨rfl, rfl⟩ | hu
        · exact absurd (inv.owners e _ before).2 (lt_irrefl _)
        · exact home q' hu
      · rcases threads t' q h' with ⟨-, rfl⟩ | h'
        · exact absurd rfl ne'
        · exact only t' h'
    · intro e u he
      obtain ⟨-, he⟩ := owners e u he
      exact ⟨(inv.owners e u he).1, Nat.lt_succ_of_lt (inv.owners e u he).2⟩
    · intro n hn
      obtain ⟨hthread, hproc⟩ := inv.fresh n (Nat.le_of_succ_le hn)
      exact ⟨(new n (Nat.ne_of_gt hn)).trans hthread, hproc⟩
    · intro t₁ t₂ q h₁ h₂ hs
      have ne : q ≠ p := by rintro rfl; simp [hs'] at hs
      have hs : s.shared q = false := by simpa [hs', ne] using hs
      rcases threads t₁ q h₁ with ⟨-, eq⟩ | old₁
      · exact absurd eq ne
      rcases threads t₂ q h₂ with ⟨-, eq⟩ | old₂
      · exact absurd eq ne
      · exact inv.single t₁ t₂ q old₁ old₂ hs
    · rw [whole]
      exact fun no => by cases no
    · rw [whole]
      exact fun no => by cases no
  · intro t' ne live
    refine ⟨fun was => ?_, fun dead => ?_⟩
    · obtain ⟨q, hq⟩ := Option.isSome_iff_exists.mp was
      refine rely_of_same rfl (fun _ _ _ => rfl) (new t' (old t' q hq)) ?_ (fun _ _ => rfl) ?_ ?_
        (fun _ _ h => h)
      · intro alone q' t'' h' h''
        rcases threads t' q' h' with ⟨eq, -⟩ | was'
        · exact absurd eq (old t' q hq)
        rcases threads t'' q' h'' with ⟨-, rfl⟩ | was''
        · exact absurd (alone q' t was' h.thread).symm ne
        · exact alone q' t'' was' was''
      · intro q' hq'
        by_cases same : q' = p
        · subst same
          by_contra unshared
          have : s.shared q' = false := by
            cases hsh : s.shared q' with
            | false => rfl
            | true => exact absurd (by simp [hs', hsh]) unshared
          exact ne (inv.single t t' q' h.thread hq' this)
        · simp [hs', same]
      · intro e he
        have : e ≠ pr.dir := by
          rintro rfl
          exact owner_ne_of_mine inv h.mine ne he
        simpa [hs', this] using he
    · obtain ⟨q, hq⟩ := Option.isSome_iff_exists.mp live
      rcases threads t' q hq with ⟨rfl, rfl⟩ | hq
      · refine ⟨q, pr.dir, f, by simp [hs'], by simp [hs', hp], (fun _ no => by cases no), ?_, ?_, ?_⟩ <;>
          exact fun hs => absurd hs (by simp [hs'])
      · simp [sys, hq] at dead
  · refine ⟨p, pr.dir, f, (new t (old t p h.thread)).trans h.thread, by simp [hs', hp], (fun _ no => by cases no),
      ?_, ?_, ?_⟩ <;> exact fun hs => absurd hs (by simp [hs'])

/-! ### Directories -/

/-- The thread runs in `d` alone and builds `e`, which shows `g` by now. `known` is
what it has seen of the pages of `d`, `pages` what is known of those of `e`. -/
structure Building (t d e p : Nat) (f : Nat → UInt8) (bad : Option Nat) (g : Nat → UInt8)
    (known pages : (Nat → Option PageState) → Prop) (s : Kernel) : Prop where
  here : At none (some e) t d f s p
  alone : s.Alone t
  shows : s.shared p = false → Shows bad e g s.mem
  known : s.shared p = false → known (s.mem.state d)
  pages : pages (s.mem.state e)

/-- The thread runs in `d` alone and builds nothing. -/
structure Solo (t d : Nat) (f : Nat → UInt8) (p : Nat) (s : Kernel) : Prop where
  here : At none none t d f s p
  alone : s.Alone t

theorem Solo.stable : (sys full).Stable t (Solo t d f p) :=
  fun _ _ h rely => ⟨h.here.of_rely rely, rely.alone h.alone⟩

theorem state_congr {m m' : Mem} (space : m'.vm.abs.space d = m.vm.abs.space d) :
    m'.state d = m.state d := by
  funext page
  rw [Mem.state, Mem.state, space]

theorem Building.stable {e : Nat} {g : Nat → UInt8}
    {known pages : (Nat → Option PageState) → Prop} :
    (sys full).Stable t (Building t d e p f bad g known pages) := by
  intro s s' h rely
  have owner := (h.here.holds e rfl).1
  have shared := rely.shared p h.here.thread
  refine ⟨h.here.of_rely rely, rely.alone h.alone, fun hs => ?_, fun hs => ?_, ?_⟩
  · rw [shared] at hs
    intro w user
    rw [rely.bytes e w owner user]
    exact h.shows hs w user
  · rw [shared] at hs
    rw [state_congr (rely.space d (h.here.owner hs))]
    exact h.known hs
  · rw [state_congr (rely.space e owner)]
    exact h.pages

/-- What is held is not the directory the thread runs in. -/
theorem At.held_ne {e : Nat} (h : At bad (some e) t d f s p) : d ≠ e := by
  obtain ⟨pr, hp, rfl⟩ := Option.map_eq_some_iff.mp h.dir
  exact (h.holds e rfl).2 p pr hp

theorem triple_constructPageDir :
    (sys full).Triple t (Solo t d f p) (act .constructPageDir) fun r s => match r with
      | none => Solo t d f p s
      | some e => Building t d e p f none (fun _ => 0) (fun _ => True)
          (fun st => ∀ page, UserPage page → st page = some (.unmapped .unavailable)) s := by
  refine Sys.Triple.perform Solo.stable ?_
  rintro s inv - - ⟨h, alone⟩
  rcases constructPageDir_mem inv.mem with ⟨fails, same⟩ | ⟨ok, unused, confined, next, pages⟩
  · obtain ⟨inv', guar, h'⟩ := step_unchanged inv h same
    refine ⟨_, none, ?_, inv', guar, fun _ => ⟨h', alone⟩⟩
    rcases hc : constructPageDir s.mem.vm with ⟨r, vm⟩
    rw [hc] at fails
    cases fails
    simp [sys, Kernel.exec, hc]
  · set e := s.mem.vm.nextDir with he
    set mem := s.mem.withVm (constructPageDir s.mem.vm).2 with hmem
    have fresh : ∀ q qr, s.procs q = some qr → qr.dir ≠ e :=
      fun q qr hq => Nat.ne_of_lt (inv.dirs q qr hq)
    have unowned : ∀ u, s.owner e ≠ some u :=
      fun u hu => absurd (inv.owners e u hu).1 (lt_irrefl _)
    refine ⟨{ s with mem := mem, owner := Function.update s.owner e (some t) }, some e, ?_, ?_, ?_,
      fun _ => ⟨⟨h.thread, h.dir, ?_, fun hs => ?_, h.flat, fun hs => ?_⟩, alone, fun hs => ?_,
        fun _ => trivial, fun page hp => pages page hp⟩⟩
    · rcases hc : constructPageDir s.mem.vm with ⟨r, vm⟩
      rw [hc] at ok
      cases ok
      simp [sys, Kernel.exec, hc, hmem]
    · refine { inv with
        mem := confined.inv
        dirs := fun q qr hq => Nat.lt_of_lt_of_le (inv.dirs q qr hq) confined.next
        sole := ?_
        owners := ?_ }
      · intro a u q qr owner hq dir
        have ne : a ≠ e := by rintro rfl; exact fresh q qr hq dir
        exact inv.sole a u q qr (by simpa [ne] using owner) hq dir
      · intro a u owner
        by_cases same : a = e
        · subst same
          simp only [Function.update_self, Option.some.injEq] at owner
          subst owner
          refine ⟨next ▸ Nat.lt_succ_self _, ?_⟩
          by_contra late
          have := (inv.fresh t (Nat.not_lt.mp late)).1
          rw [h.thread] at this
          cases this
        · have owner : s.owner a = some u := by simpa [same] using owner
          exact ⟨Nat.lt_of_lt_of_le (inv.owners a u owner).1 confined.next,
            (inv.owners a u owner).2⟩
    · intro t' ne live
      refine ⟨fun _ => ?_, fun dead => absurd live (by simpa [sys] using dead)⟩
      have other : ∀ a, s.owner a = some t' → a ≠ e := by
        rintro a ha rfl
        exact unowned t' ha
      refine ⟨rfl, id, fun _ _ => rfl, fun _ _ => rfl, fun a ha => ?_,
        fun a ha => confined.space a (other a ha), fun a w ha => confined.bytes a w (other a ha),
        fun _ _ h => h, fun _ _ _ => rfl⟩
      simpa [other a ha] using ha
    · rintro a ⟨⟩
      exact ⟨Function.update_self .., fresh⟩
    · have ne : d ≠ e := by
        rintro rfl
        exact unowned t (h.owner hs)
      simpa [ne] using h.owner hs
    · have ne : d ≠ e := by
        rintro rfl
        exact unowned t (h.owner hs)
      intro w user
      rw [confined.bytes d w ne user]
      exact h.shows hs w user
    · intro w user
      simp only [reduceCtorEq, ↓reduceIte]
      exact (byteAt_unmapped (pages _ user.page)).symm

/-- A directory that is held may go. -/
theorem triple_destructPageDir {e : Nat} :
    (sys full).Triple t (Here none (some e) t d) (act (.destructPageDir e))
      fun _ => Here none none t d := by
  refine Sys.Triple.perform Here.stable ?_
  rintro s inv - - ⟨p, f, h⟩
  obtain ⟨owner, unnamed⟩ := h.holds e rfl
  have ne := h.held_ne
  have confined := destructPageDir_mem inv.mem e
  have owners : ∀ a u, Function.update s.owner e none a = some u → a ≠ e ∧ s.owner a = some u := by
    intro a u ha
    have : a ≠ e := by rintro rfl; simp at ha
    exact ⟨this, by simpa [this] using ha⟩
  refine ⟨{ s with mem := s.mem.withVm (destructPageDir s.mem.vm e),
                   owner := Function.update s.owner e none }, (), rfl, ?_, ?_,
    fun _ => ⟨p, f, h.thread, h.dir, nofun, fun hs => ?_, h.flat, fun hs w user => ?_⟩⟩
  · refine { inv with
      mem := confined.inv
      dirs := fun q qr hq => Nat.lt_of_lt_of_le (inv.dirs q qr hq) confined.next
      sole := fun a u q qr ha => inv.sole a u q qr (owners a u ha).2
      owners := fun a u ha => ⟨Nat.lt_of_lt_of_le (inv.owners a u (owners a u ha).2).1
        confined.next, (inv.owners a u (owners a u ha).2).2⟩ }
  · intro t' other live
    refine ⟨fun _ => ?_, fun dead => absurd live (by simpa [sys] using dead)⟩
    have apart : ∀ a, s.owner a = some t' → a ≠ e := by
      rintro a ha rfl
      exact owner_ne_of_mine inv (.inl owner) other ha
    refine ⟨rfl, id, fun _ _ => rfl, fun _ _ => rfl, fun a ha => ?_,
      fun a ha => confined.space a (apart a ha), fun a w ha => confined.bytes a w (apart a ha),
      fun _ _ h => h, fun _ _ _ => rfl⟩
    simpa [apart a ha] using ha
  · simpa [ne] using h.owner hs
  · rw [confined.bytes d w ne user]
    exact h.shows hs w user

theorem threadAliveCount_eq_zero (inv : s.Inv full) {q : Nat} (h : s.threadAliveCount q = 0)
    (t : Nat) : s.thread t ≠ some q := by
  intro ht
  have bound : t < s.threadCount := by
    by_contra late
    rw [(inv.fresh t (Nat.not_lt.mp late)).1] at ht
    cases ht
  have mem : t ∈ (List.range s.threadCount).filter fun t => s.thread t = some q := by
    simp [bound, ht]
  rw [List.eq_nil_of_length_eq_zero h] at mem
  cases mem

/-- A process that has exited leaves its directory to whoever reaps it. -/
theorem triple_detach (q : Nat) :
    (sys full).Triple t (Here none none t d) (act (.detach q)) fun r s => match r with
      | none => Here none none t d s
      | some e => Here none (some e) t d s := by
  refine Sys.Triple.perform Here.stable ?_
  rintro s inv - - ⟨p, f, h⟩
  cases hq : s.procs q with
  | none =>
      exact ⟨s, none, by simp [sys, Kernel.exec, hq], inv, guarantees_refl s, fun _ => ⟨p, f, h⟩⟩
  | some qr =>
      by_cases alive : s.threadAliveCount q = 0
      swap
      · exact ⟨s, none, by simp [sys, Kernel.exec, hq, alive], inv, guarantees_refl s,
          fun _ => ⟨p, f, h⟩⟩
      have dead := threadAliveCount_eq_zero inv alive
      have ne : p ≠ q := by rintro rfl; exact dead t h.thread
      set s' := { s with procs := Function.update s.procs q none,
                         owner := Function.update s.owner qr.dir (some t) } with hs'
      have procs : ∀ a ar, s'.procs a = some ar → a ≠ q ∧ s.procs a = some ar := by
        intro a ar ha
        have : a ≠ q := by rintro rfl; simp [hs'] at ha
        exact ⟨this, by simpa [hs', this] using ha⟩
      have unnamed : s'.Unnamed qr.dir := fun a ar ha same =>
        (procs a ar ha).1 (inv.distinct a q ar qr (procs a ar ha).2 hq same)
      have owners : ∀ e u, e ≠ qr.dir → s'.owner e = some u → s.owner e = some u :=
        fun e u he ho => by simpa [hs', he] using ho
      have kept : ∀ t' e, t' ≠ t → (s.thread t').isSome → s.owner e = some t' → e ≠ qr.dir := by
        rintro t' e - live ho rfl
        obtain ⟨a, ha⟩ := Option.isSome_iff_exists.mp live
        have := (inv.sole _ t' q qr ho hq rfl).1 a ha
        exact dead t' (this ▸ ha)
      refine ⟨s', some qr.dir, by simp [sys, Kernel.exec, hq, alive, hs'], ?_, ?_, fun _ => ?_⟩
      · refine ⟨inv.mem, ?_, fun a ar ha => inv.dirs a ar (procs a ar ha).2,
          fun a b ar br ha hb => inv.distinct a b ar br (procs a ar ha).2 (procs b br hb).2, ?_, ?_,
          ?_, inv.single, inv.unshared, inv.agree⟩
        · intro t' a ha
          obtain ⟨ar, har⟩ := inv.proc t' a ha
          have : a ≠ q := by rintro rfl; exact dead t' ha
          exact ⟨ar, by simpa [hs', this] using har⟩
        · intro e u a ar ho ha dir
          have : e ≠ qr.dir := by rintro rfl; exact unnamed a ar ha dir
          exact inv.sole e u a ar (owners e u this ho) (procs a ar ha).2 dir
        · intro e u ho
          by_cases same : e = qr.dir
          · subst same
            simp only [hs', Function.update_self, Option.some.injEq] at ho
            subst ho
            refine ⟨inv.dirs q qr hq, ?_⟩
            by_contra late
            have := (inv.fresh t (Nat.not_lt.mp late)).1
            rw [h.thread] at this
            cases this
          · exact inv.owners e u (owners e u same ho)
        · intro n hn
          refine ⟨(inv.fresh n hn).1, ?_⟩
          by_cases same : n = q
          · simp [hs', same]
          · simpa [hs', same] using (inv.fresh n hn).2
      · intro t' other live
        refine ⟨fun was => ?_, fun gone => absurd live (by simpa [sys] using gone)⟩
        refine rely_of_same rfl (fun _ _ _ => rfl) rfl id ?_ (fun _ _ => rfl) ?_ ?_
        · intro a ha
          have : a ≠ q := by rintro rfl; exact dead t' ha
          simp [hs', this]
        · intro e ho
          simpa [hs', kept t' e other was ho] using ho
        · intro e _ free a ar ha
          exact free a ar (procs a ar ha).2
      · refine ⟨p, f, h.thread, by simpa [hs', ne] using h.dir, ?_, fun hs => ?_, h.flat, h.shows⟩
        · rintro e ⟨⟩
          exact ⟨by simp [hs'], unnamed⟩
        · have : d ≠ qr.dir := by
            obtain ⟨pr, hp, rfl⟩ := Option.map_eq_some_iff.mp h.dir
            exact fun same => ne (inv.distinct p q pr qr hp hq same)
          simpa [hs', this] using h.owner hs

/-! ### A directory given to a process -/

variable {e : Nat} {g : Nat → UInt8} {known pages : (Nat → Option PageState) → Prop}

/-- A thread killed while it builds leaves the directory to its process. -/
theorem triple_vanish_building {Q : Unit → Kernel → Prop} :
    (sys full).Triple t (Building t d e p f bad g known pages) (act (.vanish e)) Q := by
  refine Sys.Triple.perform Building.stable ?_
  rintro s inv - - h
  obtain ⟨pr, hp, -⟩ := Option.map_eq_some_iff.mp h.here.dir
  obtain ⟨owner, unnamed⟩ := h.here.holds e rfl
  obtain ⟨inv', guar⟩ := step_vanish inv h.here.thread hp (inv.owners e t owner).1
    (fun q qr _ hq => unnamed q qr hq) (.inr ⟨h.alone, owner⟩)
  refine ⟨_, (), ?_, inv', guar, fun live => ?_⟩
  · simp [sys, Kernel.exec, Kernel.proc, h.here.thread, hp]
  · simp [sys] at live

/-- The process runs in the new directory, and holds the old one. -/
theorem triple_newImage (guest : Bool) (placed : List (Nat × UInt8)) :
    (sys full).Triple t (Building t d e p f none (place placed) known pages)
      (act (.newImage e guest placed)) fun _ => Here none (some d) t e := by
  refine Sys.Triple.perform Building.stable ?_
  rintro s inv - - ⟨h, alone, shows, -, -⟩
  obtain ⟨pr, hp, rfl⟩ := Option.map_eq_some_iff.mp h.dir
  obtain ⟨owner, unnamed⟩ := h.holds e rfl
  have ne := h.held_ne
  set s' := { s with procs := Function.update s.procs p (some { dir := e, guest := guest }),
                     trace := s.trace ++ [Event.execed p placed],
                     owner := Function.update s.owner pr.dir (some t) } with hs'
  have flat : ∀ q, flatOf s'.trace q = if q = p then place placed else flatOf s.trace q := by
    intro q
    rw [hs', flatOf_concat]
    by_cases same : q = p
    · simp [Flat.step, same]
    · simp [Flat.step, same]
  have procs : ∀ q qr, s'.procs q = some qr → (q = p ∧ qr = { dir := e, guest := guest }) ∨
      (q ≠ p ∧ s.procs q = some qr) := by
    intro q qr hq
    by_cases same : q = p
    · subst same
      simp only [hs', Function.update_self, Option.some.injEq] at hq
      exact .inl ⟨rfl, hq.symm⟩
    · exact .inr ⟨same, by simpa [hs', same] using hq⟩
  have owners : ∀ a u, s'.owner a = some u → (a = pr.dir ∧ u = t) ∨ s.owner a = some u := by
    intro a u ho
    by_cases same : a = pr.dir
    · subst same
      simp only [hs', Function.update_self, Option.some.injEq] at ho
      exact .inl ⟨rfl, ho.symm⟩
    · exact .inr (by simpa [hs', same] using ho)
  have free : s'.Unnamed pr.dir := by
    intro q qr hq
    rcases procs q qr hq with ⟨-, rfl⟩ | ⟨other, old⟩
    · exact ne.symm
    · exact fun same => other (inv.distinct q p qr pr old hp same)
  refine ⟨s', (), by simp [sys, Kernel.exec, Kernel.proc, h.thread, hp, hs'], ?_, ?_, fun _ => ?_⟩
  · refine ⟨inv.mem, ?_, ?_, ?_, ?_, ?_, ?_, inv.single, inv.unshared, fun single => ?_⟩
    · intro t' q h'
      obtain ⟨qr, hq⟩ := inv.proc t' q h'
      by_cases same : q = p
      · exact ⟨_, by simp [hs', same]; rfl⟩
      · exact ⟨qr, by simpa [hs', same] using hq⟩
    · intro q qr hq
      rcases procs q qr hq with ⟨-, rfl⟩ | ⟨-, old⟩
      · exact (inv.owners e t owner).1
      · exact inv.dirs q qr old
    · intro q q' qr qr' hq hq' same
      rcases procs q qr hq with ⟨rfl, rfl⟩ | ⟨other, old⟩ <;>
        rcases procs q' qr' hq' with ⟨rfl, rfl⟩ | ⟨other', old'⟩
      · rfl
      · exact absurd same.symm (unnamed q' qr' old')
      · exact absurd same (unnamed q qr old)
      · exact inv.distinct q q' qr qr' old old' same
    · intro a u q qr ho hq dir
      have apart : a ≠ pr.dir := by rintro rfl; exact free q qr hq dir
      rcases owners a u ho with ⟨same, -⟩ | before
      · exact absurd same apart
      rcases procs q qr hq with ⟨rfl, rfl⟩ | ⟨-, old⟩
      · dsimp only at dir
        rw [← dir, owner, Option.some.injEq] at before
        rw [← before]
        exact ⟨fun q' hq' => Option.some.inj (hq'.symm.trans h.thread),
          fun t' h' => alone q t' h.thread h'⟩
      · exact inv.sole a u q qr before old dir
    · intro a u ho
      rcases owners a u ho with ⟨rfl, rfl⟩ | ho
      · exact ⟨inv.dirs p pr hp, (inv.owners e u owner).2⟩
      · exact inv.owners a u ho
    · intro n hn
      obtain ⟨hthread, hproc⟩ := inv.fresh n hn
      have : n ≠ p := by rintro rfl; rw [hp] at hproc; cases hproc
      exact ⟨hthread, by simpa [hs', this] using hproc⟩
    · exact loadsAgree_concat (inv.agree single) (by simp)
  · intro t' other live
    refine ⟨fun _ => ?_, fun dead => absurd live (by simpa [sys] using dead)⟩
    have apart : ∀ q, s.thread t' = some q → q ≠ p := by
      rintro q hq rfl
      exact other (alone q t' h.thread hq)
    refine rely_of_same rfl ?_ rfl id ?_ (fun _ _ => rfl) ?_ ?_
    · intro q hq _
      rw [flat, if_neg (apart q hq)]
    · intro q hq
      simp [hs', apart q hq]
    · intro a ho
      have : a ≠ pr.dir := by
        rintro rfl
        exact owner_ne_of_mine inv h.mine other ho
      simpa [hs', this] using ho
    · intro a ho unnamed' q qr hq
      rcases procs q qr hq with ⟨-, rfl⟩ | ⟨-, old⟩
      · rintro rfl
        exact owner_ne_of_mine inv (.inl owner) other ho
      · exact unnamed' q qr old
  · refine ⟨p, place placed, h.thread, by simp [hs'], ?_, fun _ => ?_, fun _ => ?_, shows⟩
    · rintro a ⟨⟩
      exact ⟨by simp [hs'], free⟩
    · simpa [hs', ne.symm] using owner
    · rw [flat, if_pos rfl]

/-- The child of a fork runs in the directory that was built for it. -/
theorem triple_newProcess (allocs : List (Nat × Int)) :
    (sys full).Triple t (Building t d e p f none f known pages) (act (.newProcess e allocs))
      fun _ => Ready t := by
  refine Sys.Triple.perform Building.stable ?_
  rintro s inv - - ⟨h, alone, shows, -, -⟩
  obtain ⟨owner, unnamed⟩ := h.holds e rfl
  have ne := h.held_ne
  set child := s.threadCount with hchild
  obtain ⟨noThread, noProc⟩ := inv.fresh child (le_refl _)
  have pne : p ≠ child := by
    rintro rfl
    obtain ⟨pr, hp⟩ := inv.proc t _ h.thread
    rw [noProc] at hp
    cases hp
  have tne : ∀ t' q, s.thread t' = some q → t' ≠ child := by
    rintro t' q h' rfl
    rw [noThread] at h'
    cases h'
  set s' := { s with threadCount := child + 1,
                     thread := Function.update s.thread child (some child),
                     procs := Function.update s.procs child (some { dir := e, allocs := allocs }),
                     trace := s.trace ++ [Event.forked p child],
                     owner := Function.update s.owner e (if s.shared p then none else some child),
                     shared := Function.update s.shared child (s.shared p) } with hs'
  have flat : ∀ q, flatOf s'.trace q = if q = child then flatOf s.trace p else flatOf s.trace q := by
    intro q
    rw [hs', flatOf_concat]
    by_cases same : q = child
    · simp [Flat.step, same]
    · simp [Flat.step, same]
  have threads : ∀ t' q, s'.thread t' = some q → (t' = child ∧ q = child) ∨
      (t' ≠ child ∧ q ≠ child ∧ s.thread t' = some q) := by
    intro t' q h'
    by_cases same : t' = child
    · subst same
      simp only [hs', Function.update_self, Option.some.injEq] at h'
      exact .inl ⟨rfl, h'.symm⟩
    · have old : s.thread t' = some q := by simpa [hs', same] using h'
      refine .inr ⟨same, ?_, old⟩
      rintro rfl
      obtain ⟨qr, hq⟩ := inv.proc t' _ old
      rw [noProc] at hq
      cases hq
  have procs : ∀ q qr, s'.procs q = some qr → (q = child ∧ qr = { dir := e, allocs := allocs }) ∨
      (q ≠ child ∧ s.procs q = some qr) := by
    intro q qr hq
    by_cases same : q = child
    · subst same
      simp only [hs', Function.update_self, Option.some.injEq] at hq
      exact .inl ⟨rfl, hq.symm⟩
    · exact .inr ⟨same, by simpa [hs', same] using hq⟩
  have owners : ∀ a u, s'.owner a = some u → (a = e ∧ u = child ∧ s.shared p = false) ∨
      (a ≠ e ∧ s.owner a = some u) := by
    intro a u ho
    by_cases same : a = e
    · subst same
      simp only [hs', Function.update_self] at ho
      cases hsh : s.shared p with
      | true => simp [hsh] at ho
      | false => exact .inl ⟨rfl, by simpa [hsh] using ho.symm, rfl⟩
    · exact .inr ⟨same, by simpa [hs', same] using ho⟩
  refine ⟨s', (), by simp [sys, Kernel.exec, h.thread, hs', hchild], ?_, ?_, fun _ => ?_⟩
  · refine ⟨inv.mem, ?_, ?_, ?_, ?_, ?_, ?_, ?_, fun single q => ?_, fun single => ?_⟩
    · intro t' q h'
      rcases threads t' q h' with ⟨-, rfl⟩ | ⟨-, other, old⟩
      · exact ⟨_, by simp [hs']; rfl⟩
      · obtain ⟨qr, hq⟩ := inv.proc t' q old
        exact ⟨qr, by simpa [hs', other] using hq⟩
    · intro q qr hq
      rcases procs q qr hq with ⟨-, rfl⟩ | ⟨-, old⟩
      · exact (inv.owners e t owner).1
      · exact inv.dirs q qr old
    · intro q q' qr qr' hq hq' same
      rcases procs q qr hq with ⟨rfl, rfl⟩ | ⟨other, old⟩ <;>
        rcases procs q' qr' hq' with ⟨rfl, rfl⟩ | ⟨other', old'⟩
      · rfl
      · exact absurd same.symm (unnamed q' qr' old')
      · exact absurd same (unnamed q qr old)
      · exact inv.distinct q q' qr qr' old old' same
    · intro a u q qr ho hq dir
      rcases owners a u ho with ⟨rfl, rfl, -⟩ | ⟨apart, ho⟩
      · rcases procs q qr hq with ⟨rfl, rfl⟩ | ⟨-, old⟩
        · refine ⟨fun q' hq' => ?_, fun t' h' => ?_⟩
          · rcases threads child q' hq' with ⟨-, same⟩ | ⟨other, -⟩
            · exact same
            · exact absurd rfl other
          · rcases threads t' child h' with ⟨same, -⟩ | ⟨-, other, -⟩
            · exact same
            · exact absurd rfl other
        · exact absurd dir (unnamed q qr old)
      · rcases procs q qr hq with ⟨rfl, rfl⟩ | ⟨-, old⟩
        · exact absurd dir.symm apart
        · obtain ⟨home, only⟩ := inv.sole a u q qr ho old dir
          refine ⟨fun q' hq' => ?_, fun t' h' => ?_⟩
          · rcases threads u q' hq' with ⟨rfl, -⟩ | ⟨-, -, old'⟩
            · exact absurd (inv.owners a child ho).2 (lt_irrefl _)
            · exact home q' old'
          · rcases threads t' q h' with ⟨-, rfl⟩ | ⟨-, -, old'⟩
            · rw [noProc] at old
              cases old
            · exact only t' old'
    · intro a u ho
      rcases owners a u ho with ⟨rfl, rfl, -⟩ | ⟨-, ho⟩
      · exact ⟨(inv.owners a t owner).1, Nat.lt_succ_self _⟩
      · exact ⟨(inv.owners a u ho).1, Nat.lt_succ_of_lt (inv.owners a u ho).2⟩
    · intro n hn
      obtain ⟨hthread, hproc⟩ := inv.fresh n (Nat.le_of_succ_le hn)
      have : n ≠ child := Nat.ne_of_gt hn
      exact ⟨by simpa [hs', this] using hthread, by simpa [hs', this] using hproc⟩
    · intro t₁ t₂ q h₁ h₂ hs
      rcases threads t₁ q h₁ with ⟨same, isChild⟩ | ⟨-, other, old₁⟩ <;>
        rcases threads t₂ q h₂ with ⟨same', isChild'⟩ | ⟨-, other', old₂⟩
      · exact same'.trans same.symm
      · exact absurd isChild other'
      · exact absurd isChild' other
      · exact inv.single t₁ t₂ q old₁ old₂ (by simpa [hs', other] using hs)
    · by_cases same : q = child
      · simpa [hs', same] using inv.unshared single p
      · simpa [hs', same] using inv.unshared single q
    · exact loadsAgree_concat (inv.agree single) (by simp)
  · intro t' other live
    refine ⟨fun was => ?_, fun dead => ?_⟩
    · obtain ⟨q', hq'⟩ := Option.isSome_iff_exists.mp was
      have apart : ∀ q, s.thread t' = some q → q ≠ child := by
        rintro q hq rfl
        obtain ⟨qr, hqr⟩ := inv.proc t' _ hq
        rw [noProc] at hqr
        cases hqr
      refine rely_of_same rfl ?_ (by simp [hs', tne t' q' hq']) ?_ ?_ ?_ ?_ ?_
      · intro q hq _
        rw [flat, if_neg (apart q hq)]
      · intro alone' q t'' h' h''
        rcases threads t' q h' with ⟨same, -⟩ | ⟨-, hne, old⟩
        · exact absurd same (tne t' q' hq')
        rcases threads t'' q h'' with ⟨-, same⟩ | ⟨-, -, old'⟩
        · exact absurd same hne
        · exact alone' q t'' old old'
      · intro q hq
        simp [hs', apart q hq]
      · intro q hq
        simp [hs', apart q hq]
      · intro a ho
        have : a ≠ e := by
          rintro rfl
          exact owner_ne_of_mine inv (.inl owner) other ho
        simpa [hs', this] using ho
      · intro a ho unnamed' q qr hq
        rcases procs q qr hq with ⟨-, rfl⟩ | ⟨-, old⟩
        · rintro rfl
          exact owner_ne_of_mine inv (.inl owner) other ho
        · exact unnamed' q qr old
    · obtain ⟨q, hq⟩ := Option.isSome_iff_exists.mp live
      rcases threads t' q hq with ⟨rfl, rfl⟩ | ⟨-, -, old⟩
      · have shared : s'.shared child = s.shared p := by simp [hs']
        refine ⟨child, e, f, by simp [hs'], by simp [hs'], (fun _ no => by cases no), fun hs => ?_, fun hs => ?_,
          fun hs => shows (shared ▸ hs)⟩
        · simp [hs', shared ▸ hs]
        · rw [flat, if_pos rfl]
          exact h.flat (shared ▸ hs)
      · simp [sys, old] at dead
  · have shared : s'.shared p = s.shared p := by simp [hs', pne]
    refine ⟨p, d, f, by simp [hs', tne t p h.thread, h.thread], by simpa [hs', pne] using h.dir,
      (fun _ no => by cases no), fun hs => ?_, fun hs => ?_, fun hs => h.shows (shared ▸ hs)⟩
    · simpa [hs', ne] using h.owner (shared ▸ hs)
    · rw [flat, if_neg pne]
      exact h.flat (shared ▸ hs)

end OsKernel.Memory
