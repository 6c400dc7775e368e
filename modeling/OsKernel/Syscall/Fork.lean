/-
The pages of a child: the copy loop of `fork_ctrl_blk`.

`Mirrors m₀ m parent child q` says that page `q` of the child, in memory `m`, is what
page `q` of the parent was in `m₀`: unmapped with the same available bits, on the zero
frame, or on a frame of its own with the same bytes and the same access. `Filling` is
what the loop leaves alone, at whatever point it stops: every other directory, and the
contents of every frame that was not in the pool. `Copied` adds how far it has come.
-/

import OsKernel.Syscall.Refine

namespace OsKernel.Syscall

open OsKernel.Vm OsKernel.Memory Prog Sys

/-- How a page of the child stands to the page of the parent. -/
inductive Mirrors (m₀ m : Mem) (parent child q : Nat) : Prop where
  | unmapped {avail : Availability} (old : m₀.state parent q = some (.unmapped avail))
      (new : m.state child q = some (.unmapped avail))
  | zero {pte pte' : Pte} (old : m₀.state parent q = some (.mapped pte))
      (new : m.state child q = some (.mapped pte')) (oldZero : pte.pageAddr * pageSize = zeroFrame)
      (newZero : pte'.pageAddr * pageSize = zeroFrame)
  | own {pte pte' : Pte} (old : m₀.state parent q = some (.mapped pte))
      (new : m.state child q = some (.mapped pte')) (oldOwn : pte.pageAddr * pageSize ≠ zeroFrame)
      (newOwn : pte'.pageAddr * pageSize ≠ zeroFrame) (us : pte'.us = true) (rw : pte'.rw = pte.rw)
      (pool : pte'.pageAddr * pageSize ∈ m₀.vm.allocList)
      (bytes : ∀ off < pageSize, m.phys (pte'.pageAddr * pageSize + off) =
        m₀.phys (pte.pageAddr * pageSize + off))

/-- Only frames of the pool have been written, and they have gone to the child only. -/
structure Filling (child : Nat) (m₀ m : Mem) : Prop where
  within : Within child m₀.vm m.vm
  spare : ∀ n off, off < pageSize → n * pageSize ∉ m₀.vm.allocList →
    m.phys (n * pageSize + off) = m₀.phys (n * pageSize + off)

/-- The pages below `page` are copied. -/
structure Copied (parent child page : Nat) (m₀ m : Mem) : Prop extends Filling child m₀ m where
  done : ∀ q, UserPage q → q < page → Mirrors m₀ m parent child q
  todo : ∀ q, UserPage q → page ≤ q → m.state child q = some (.unmapped .unavailable)

section
variable {parent child page : Nat} {m₀ m m' : Mem}

theorem Filling.put {state : PageState} (h : Filling child m₀ m)
    (put : Put True child page state m m') : Filling child m₀ m' :=
  ⟨h.within.trans (put.within trivial), fun n off hoff spare => by
    rw [put.phys]
    exact h.spare n off hoff spare⟩

theorem Filling.same (h : Filling child m₀ m) (same : Same child m m') : Filling child m₀ m' :=
  ⟨h.within.trans same.within, fun n off hoff spare => by
    rw [same.phys]
    exact h.spare n off hoff spare⟩

/-- A page of the child that had no frame when the copy began has one of the pool. -/
theorem Filling.pool (h : Filling child m₀ m) (fresh : ∀ q f, ¬ m₀.vm.abs.Maps child q f) {q f : Nat}
    (maps : m.vm.abs.Maps child q f) (nz : f ≠ zeroFrame) : f ∈ m₀.vm.allocList := by
  rcases (h.within.frames f nz).mp (.inr ⟨q, maps⟩) with pool | ⟨q', maps'⟩
  · exact pool
  · exact absurd maps' (fresh q' f)

/-- A page that nothing happened to. -/
theorem Mirrors.congr {q : Nat} (h : Mirrors m₀ m parent child q)
    (state : m'.state child q = m.state child q) (phys : m'.phys = m.phys) :
    Mirrors m₀ m' parent child q := by
  cases h with
  | unmapped old new => exact .unmapped old (state.trans new)
  | zero old new oldZero newZero => exact .zero old (state.trans new) oldZero newZero
  | own old new oldOwn newOwn us rw pool bytes =>
      refine .own old (state.trans new) oldOwn newOwn us rw pool fun off hoff => ?_
      rw [phys]
      exact bytes off hoff

theorem Mirrors.of_put {q : Nat} {state : PageState} (h : Mirrors m₀ m parent child q)
    (put : Put True child page state m m') (ne : q ≠ page) : Mirrors m₀ m' parent child q :=
  h.congr (put.rest q ne) put.phys

theorem Copied.same (h : Copied parent child page m₀ m) (same : Same child m m') :
    Copied parent child page m₀ m' :=
  ⟨h.toFilling.same same, fun q user lt => (h.done q user lt).congr (same.state q) same.phys,
    fun q user ge => (same.state q).trans (h.todo q user ge)⟩

/-- A page is done once it mirrors the page of the parent. -/
theorem Copied.next {state : PageState} (h : Copied parent child page m₀ m)
    (put : Put True child page state m m') (mirrors : Mirrors m₀ m' parent child page) :
    Copied parent child (page + 1) m₀ m' := by
  refine ⟨h.toFilling.put put, fun q user lt => ?_, fun q user ge => ?_⟩
  · rcases Nat.lt_succ_iff_lt_or_eq.mp lt with lt | rfl
    · exact (h.done q user lt).of_put put (Nat.ne_of_lt lt)
    · exact mirrors
  · rw [put.rest q (by omega)]
    exact h.todo q user (by omega)

end

/-! ### One page of the child -/

section
variable {last exact : Prop} {t parent child : Nat} {s₀ : Kernel} {m₀ m m' : Mem}

/-- A page of the child was not copied after all. -/
def Moved (child : Nat) (m m' : Mem) : Prop := Within child m.vm m'.vm ∧ m'.phys = m.phys

theorem Filling.moved (h : Filling child m₀ m) (moved : Moved child m m') : Filling child m₀ m' :=
  ⟨h.within.trans moved.1, fun n off hoff spare => by
    rw [moved.2]
    exact h.spare n off hoff spare⟩

theorem Same.moved (h : Same child m m') : Moved child m m' := ⟨h.within, h.phys⟩

theorem Put.moved {page : Nat} {state : PageState} (h : Put True child page state m m') :
    Moved child m m' :=
  ⟨h.within trivial, h.phys⟩

theorem Moved.trans {m'' : Mem} (h : Moved child m m') (h' : Moved child m' m'') :
    Moved child m m'' :=
  ⟨h.1.trans h'.1, h'.2.trans h.2⟩

/-- `set_availability` of a page of the child. -/
theorem triple_open (wf : m.vm.abs.Wf) (v n : Nat) :
    (free₀ last exact t).Triple () (OnMem s₀ (Eq m)) (act (.setAvailability child v n))
      fun r => OnMem s₀ fun m' => bif r then ∃ avail, Availability.ofNat? n = some avail ∧
        Put True child (pageOf v) (.unmapped avail) m m' else Moved child m m' := by
  refine Triple.conseq (triple_setAvailability m child v n) (fun _ _ h => h) ?_
  rintro r s ⟨same, result, mem⟩
  refine ⟨same, ?_⟩
  rw [result, mem]
  rcases setAvailability_put wf v n with ⟨fails, idle⟩ | ⟨_, avail, works, -, -, bits, put⟩
  · rw [fails]
    exact idle.moved
  · rw [works]
    exact ⟨avail, bits, put⟩

/-- A page of the child made available and then mapped. -/
theorem triple_forkMap (wf : m.vm.abs.Wf) (v : Nat) {map : Program Bool}
    {R : Mem → Mem → Prop} (maps : ∀ m₁, m₁.vm.abs.Wf →
      (free₀ last exact t).Triple () (OnMem s₀ (Eq m₁)) map fun r => OnMem s₀ fun m' =>
        bif r then R m₁ m' else Moved child m₁ m') :
    (free₀ last exact t).Triple () (OnMem s₀ (Eq m)) (forkMap child v map) fun r => OnMem s₀
      fun m' => bif r then ∃ m₁, Put True child (pageOf v) (.unmapped .available) m m₁ ∧ R m₁ m'
        else Moved child m m' := by
  refine Triple.bind (triple_open wf v 1) fun r => triple_at fun m₁ opened => ?_
  cases r with
  | false => exact Triple.ret fun _ _ h => ⟨h.1, h.2 ▸ opened⟩
  | true =>
      obtain ⟨avail, bits, put⟩ := opened
      cases bits
      refine Triple.conseq (maps m₁ put.apart.wf) (fun _ _ h => h) fun r s h => ⟨h.1, ?_⟩
      cases r with
      | false => exact put.moved.trans h.2
      | true => exact ⟨m₁, put, h.2⟩

theorem triple_forkZero (wf : m.vm.abs.Wf) (v : Nat) :
    (free₀ last exact t).Triple () (OnMem s₀ (Eq m))
      (forkMap child v (act (.mapZeroFrame child v))) fun r => OnMem s₀ fun m' =>
        bif r then Put True child (pageOf v) (.mapped zeroFramePte) m m' else Moved child m m' := by
  refine Triple.conseq (triple_forkMap (R := fun m₁ m' =>
    Put True child (pageOf v) (.mapped zeroFramePte) m₁ m') wf v fun m₁ wf₁ => ?_)
    (fun _ _ h => h) fun r s h => ⟨h.1, ?_⟩
  · refine Triple.conseq (triple_mapZeroFrame m₁ child v) (fun _ _ h => h) ?_
    rintro r s ⟨same, result, mem⟩
    refine ⟨same, ?_⟩
    rw [result, mem]
    rcases mapZeroFrame_put wf₁ v with ⟨fails, idle⟩ | ⟨avail, works, -, -, put⟩
    · rw [fails]
      exact idle.moved
    · rw [works]
      exact put
  · cases r with
    | false => exact h.2
    | true =>
        obtain ⟨m₁, opened, put⟩ := h.2
        exact opened.put put

end

section
variable {last exact : Prop} {t parent child page : Nat} {s₀ : Kernel} {m₀ m m' : Mem}

theorem fill_of_ne {n k off : Nat} (ne : n ≠ k) (hoff : off < pageSize) (bytes : Nat → UInt8) :
    (m.fill (k * pageSize) bytes).phys (n * pageSize + off) = m.phys (n * pageSize + off) := by
  simp only [Mem.fill, ite_eq_right_iff, and_imp]
  intro ge lt
  exact absurd (frame_eq_of_byte hoff ge lt) ne

/-- The frame of another page was filled. -/
theorem Mirrors.of_fill {q k : Nat} (h : Mirrors m₀ m parent child q) (wf : m.vm.abs.Wf)
    (user : UserPage q) (maps : m.vm.abs.Maps child page (k * pageSize)) (ne : q ≠ page)
    (bytes : Nat → UInt8) : Mirrors m₀ (m.fill (k * pageSize) bytes) parent child q := by
  cases h with
  | unmapped old new => exact .unmapped old new
  | zero old new oldZero newZero => exact .zero old new oldZero newZero
  | @own pte pte' old new oldOwn newOwn us rw pool same =>
      refine .own old new oldOwn newOwn us rw pool fun off hoff => ?_
      obtain ⟨space, hd, state⟩ := Option.map_eq_some_iff.mp new
      have other : pte'.pageAddr ≠ k := by
        intro eq
        have maps' := maps_of_state hd user state
        rw [eq] at maps' newOwn
        exact ne (wf.injective _ _ _ _ _ maps' maps newOwn).2
      rw [fill_of_ne other hoff]
      exact same off hoff

theorem setAccess_sure {d v : Nat} {pte : Pte} (user : UserPage (pageOf v))
    (mapped : m.state d (pageOf v) = some (.mapped pte)) (rw : Access) :
    (setAccess m.vm d v rw.toNat).1 = true := by
  obtain ⟨space, hd, state⟩ := Option.map_eq_some_iff.mp mapped
  obtain ⟨pd, dir, rfl⟩ := dir_of_space hd
  obtain ⟨found, -⟩ := find_of_mapped state
  have high : ¬ pageOf v * pageSize < userPageStart := fun h => not_userPage.mp h user
  cases rw <;> simp [setAccess, dir, high, found, Access.toNat, Access.ofNat?]

/-- The frame behind a page that is mapped. -/
theorem frameAt_of_state {d v : Nat} {pte : Pte} (h : m.state d (pageOf v) = some (.mapped pte)) :
    m.frameAt d v = some (pte.pageAddr * pageSize) := by
  rw [frameAt_eq, h]
  rfl

theorem Filling.others (h : Filling child m₀ m) (ne : parent ≠ child) (q : Nat) :
    m.state parent q = m₀.state parent q := by
  rw [Mem.state, Mem.state, h.within.toApart.space ne]

/-- A page of the parent that has a frame of its own was copied into the frame of the
child. -/
theorem Copied.fill {pte pte' : Pte} {m₂ m₄ : Mem} (wf₀ : m₀.vm.abs.Wf)
    (fresh : ∀ q f, ¬ m₀.vm.abs.Maps child q f) (user : UserPage page)
    (h : Copied parent child page m₀ m) (old : m₀.state parent page = some (.mapped pte))
    (oldOwn : pte.pageAddr * pageSize ≠ zeroFrame) (us : pte'.us = true)
    (newOwn : pte'.pageAddr * pageSize ≠ zeroFrame)
    (put : Put True child page (.mapped pte') m m₂)
    (set : Put True child page (.mapped { pte' with rw := pte.rw })
      (m₂.fill (pte'.pageAddr * pageSize) fun i => m₂.phys (pte.pageAddr * pageSize + i)) m₄) :
    Copied parent child (page + 1) m₀ m₄ := by
  have filling := h.toFilling.put put
  obtain ⟨space, hd, state⟩ := Option.map_eq_some_iff.mp put.now
  have maps := maps_of_state hd user state
  have pool := filling.pool fresh maps newOwn
  obtain ⟨space₀, hd₀, state₀⟩ := Option.map_eq_some_iff.mp old
  have spare : pte.pageAddr * pageSize ∉ m₀.vm.allocList :=
    wf₀.unmapped _ _ _ (maps_of_state hd₀ user state₀) oldOwn
  have other : pte.pageAddr ≠ pte'.pageAddr := by
    intro eq
    rw [eq] at spare
    exact spare pool
  -- the bytes are those of the parent, whose frame is not in the pool
  have bytes : ∀ off < pageSize, m₄.phys (pte'.pageAddr * pageSize + off) =
      m₀.phys (pte.pageAddr * pageSize + off) := by
    intro off hoff
    rw [set.phys, ← filling.spare _ off hoff spare]
    simp [Mem.fill, hoff]
  have filled : Filling child m₀
      (m₂.fill (pte'.pageAddr * pageSize) fun i => m₂.phys (pte.pageAddr * pageSize + i)) := by
    refine ⟨filling.within, fun n off hoff outside => ?_⟩
    have ne' : n ≠ pte'.pageAddr := by
      rintro rfl
      exact outside pool
    rw [fill_of_ne ne' hoff]
    exact filling.spare n off hoff outside
  refine ⟨filled.put set, fun q hq lt => ?_, fun q hq ge => ?_⟩
  · rcases Nat.lt_succ_iff_lt_or_eq.mp lt with lt | rfl
    · have neq : q ≠ page := Nat.ne_of_lt lt
      exact (((h.done q hq lt).of_put put neq).of_fill put.apart.wf hq maps neq _).of_put set neq
    · exact .own old set.now oldOwn newOwn us rfl pool bytes
  · have neq : q ≠ page := by omega
    exact (set.rest q neq).trans ((put.rest q neq).trans (h.todo q hq (by omega)))

end

section
variable {last exact : Prop} {t parent child page : Nat} {s₀ : Kernel} {m₀ m m' : Mem}

/-- What stays the same while the pages of a child are copied: the child has no frame
at the start, and it is not the parent. -/
structure Fresh (parent child : Nat) (m₀ : Mem) : Prop where
  wf : m₀.vm.abs.Wf
  none : ∀ q f, ¬ m₀.vm.abs.Maps child q f
  ne : parent ≠ child

/-- How far the loop has come, or where it stopped. -/
def Progress (parent child next : Nat) (m₀ m : Mem) (ok : Bool) : Prop :=
  bif ok then Copied parent child next m₀ m else Filling child m₀ m

/-- A page of the parent that has a frame of its own. -/
theorem triple_forkPage {v : Nat} {pte : Pte} (fresh : Fresh parent child m₀) (here : pageOf v = page)
    (user : UserPage page) (h : Copied parent child page m₀ m)
    (old : m₀.state parent page = some (.mapped pte)) (own : pte.pageAddr * pageSize ≠ zeroFrame) :
    (free₀ last exact t).Triple () (OnMem s₀ (Eq m)) (forkPage parent child v) fun ok =>
      OnMem s₀ fun m' => Progress parent child (page + 1) m₀ m' ok := by
  subst here
  refine Triple.bind (triple_forkMap (R := fun m₁ m' => ∃ pte', pte'.us = true ∧
    pte'.pageAddr * pageSize ≠ zeroFrame ∧ Put True child (pageOf v) (.mapped pte') m₁ m')
    h.within.wf v fun m₁ wf₁ => ?_) fun ok => triple_at fun m₂ copied => ?_
  · refine Triple.conseq (triple_mapNewFrame m₁ child v) (fun _ _ h => h) ?_
    rintro r s ⟨same, result, mem⟩
    refine ⟨same, ?_⟩
    rw [result, mem]
    rcases mapNewFrame_put wf₁ v with ⟨fails, idle⟩ | ⟨_, pte', works, -, -, us, -, -, nz, put⟩
    · rw [fails]
      exact idle.moved
    · rw [works]
      exact ⟨pte', us, nz, put⟩
  cases ok with
  | false => exact Triple.ret fun _ _ k => ⟨k.1, k.2 ▸ h.toFilling.moved copied⟩
  | true =>
      obtain ⟨m₁, opened, pte', us, nz, mapped⟩ := copied
      have put := opened.put mapped
      have parentState : m₂.state parent (pageOf v) = some (.mapped pte) :=
        ((h.toFilling.put put).others fresh.ne _).trans old
      -- the copy fills the frame of the child with the bytes of the parent
      generalize hm₃ : m₂.fill (pte'.pageAddr * pageSize)
        (fun i => m₂.phys (pte.pageAddr * pageSize + i)) = m₃
      have state₃ : ∀ d q, m₃.state d q = m₂.state d q := by
        intro d q
        rw [← hm₃]
        rfl
      refine Triple.bind (Q := fun _ => OnMem s₀ (Eq m₃))
        (triple_mem (.copyPage parent child v) trivial ?_) fun _ => ?_
      · rintro s - rfl
        simp only [Kernel.exec, Mem.copyPage, frameAt_of_state parentState, frameAt_of_state put.now]
        exact hm₃.symm
      refine Triple.bind (triple_askAccess m₃ parent v) fun r => triple_at fun _ told => ?_
      obtain ⟨answer, rfl⟩ := told
      obtain ⟨space, hd, state⟩ := Option.map_eq_some_iff.mp ((state₃ _ _).trans parentState)
      rw [getAccess_eq.mpr ⟨space, pte, hd, user, state, rfl⟩] at answer
      subst answer
      refine Triple.bind (triple_setAccess m₃ child v pte.rw.toNat) fun _ =>
        Triple.ret fun s _ k => ⟨k.1, ?_⟩
      have wf₃ : m₃.vm.abs.Wf := by
        rw [← hm₃]
        exact put.apart.wf
      have now₃ := (state₃ child (pageOf v)).trans put.now
      rw [k.2.2]
      rcases setAccess_put wf₃ v pte.rw.toNat with ⟨fails, -⟩ | ⟨pte'', rw, -, -, found, bits, set⟩
      · rw [setAccess_sure user now₃] at fails
        cases fails
      · obtain rfl : pte'' = pte' := by simpa using found.symm.trans now₃
        obtain rfl : rw = pte.rw := by
          cases h : pte.rw <;> simp [h, Access.toNat, Access.ofNat?] at bits <;> exact bits.symm
        subst hm₃
        exact h.fill fresh.wf fresh.none user old own us nz put set

end

/-! ### The loop -/

section
variable {last exact : Prop} {t parent child page : Nat} {s₀ : Kernel} {m₀ m m' : Mem}

/-- The page of the child that was given the available bits of the parent. -/
theorem Copied.unmapped {avail : Availability} (h : Copied parent child page m₀ m)
    (old : m₀.state parent page = some (.unmapped avail))
    (put : Put True child page (.unmapped avail) m m') : Copied parent child (page + 1) m₀ m' :=
  h.next put (.unmapped old put.now)

/-- Pages that the child leaves as they are. -/
theorem Copied.skip {next : Nat} (h : Copied parent child page m₀ m)
    (old : ∀ q, UserPage q → page ≤ q → q < next →
      m₀.state parent q = some (.unmapped .unavailable)) (le : page ≤ next) :
    Copied parent child next m₀ m := by
  refine ⟨h.toFilling, fun q user lt => ?_, fun q user ge =>
    h.todo q user (Nat.le_trans le ge)⟩
  by_cases before : q < page
  · exact h.done q user before
  · exact .unmapped (old q user (Nat.not_lt.mp before) lt) (h.todo q user (Nat.not_lt.mp before))

/-- Pages of the child made available one after another. -/
theorem triple_forkAvailable (n page : Nat) (bound : page + n ≤ virtualAddrEnd / pageSize)
    (old : ∀ q, page ≤ q → q < page + n → m₀.state parent q = some (.unmapped .available)) :
    (free₀ last exact t).Triple () (OnMem s₀ (Copied parent child page m₀))
      (forAll (fun q => act (.setAvailability child (q * pageSize) 1)) (List.range' page n))
      fun ok => OnMem s₀ fun m' => Progress parent child (page + n) m₀ m' ok := by
  induction n generalizing page with
  | zero => exact Triple.ret fun _ _ h => h
  | succ n ih =>
      rw [List.range'_succ]
      refine triple_at fun m h => ?_
      refine Triple.bind (triple_open h.within.wf _ _) fun ok => triple_at fun m' opened => ?_
      cases ok with
      | false => exact Triple.ret fun _ _ k => ⟨k.1, k.2 ▸ h.toFilling.moved opened⟩
      | true =>
          obtain ⟨avail, bits, put⟩ := opened
          cases bits
          rw [pageOf_page (by omega)] at put
          have next := h.unmapped (old page le_rfl (by omega)) put
          rw [Nat.add_comm n 1, ← Nat.add_assoc]
          exact Triple.conseq (ih (page + 1) (by omega) fun q ge lt => old q (by omega) (by omega))
            (fun _ _ k => ⟨k.1, k.2 ▸ next⟩) fun _ _ k => k

/-- The pages of a PDE of the parent that is not present. -/
theorem triple_forkTable {v n : Nat} (avail : Availability) (fresh : Fresh parent child m₀)
    (here : pageOf v = page) (user : UserPage page) (h : Copied parent child page m₀ m)
    (pos : 0 < n) (bound : page + n ≤ virtualAddrEnd / pageSize)
    (old : ∀ q, page ≤ q → q < page + n → m₀.state parent q = some (.unmapped avail)) :
    (free₀ last exact t).Triple () (OnMem s₀ (Eq m)) (forkTable parent child v (List.range' page n))
      fun ok => OnMem s₀ fun m' => Progress parent child (page + n) m₀ m' ok := by
  subst here
  refine Triple.bind (triple_askAvailability m parent v) fun r => triple_at fun _ told => ?_
  obtain ⟨answer, rfl⟩ := told
  have state := (h.toFilling.others fresh.ne _).trans (old _ le_rfl (by omega))
  obtain ⟨space, hd, state⟩ := Option.map_eq_some_iff.mp state
  rw [getAvailability_eq.mpr ⟨space, hd, user, state⟩] at answer
  subst answer
  cases avail with
  | unavailable =>
      exact Triple.ret fun _ _ k =>
        ⟨k.1, k.2 ▸ h.skip (fun q _ ge lt => old q ge lt) (Nat.le_add_right _ _)⟩
  | available =>
      exact Triple.conseq (triple_forkAvailable n _ bound old) (fun _ _ k => ⟨k.1, k.2 ▸ h⟩)
        fun _ _ k => k

theorem ofNat_toNat (avail : Availability) : Availability.ofNat? avail.toNat = some avail := by
  cases avail <;> rfl

/-- The loop from a page on. -/
theorem triple_forkPages (fresh : Fresh parent child m₀)
    (dir : (m₀.vm.abs.space parent).isSome) (page : Nat) (user : kernelPageCount ≤ page)
    (bound : page ≤ virtualAddrEnd / pageSize) :
    (free₀ last exact t).Triple () (OnMem s₀ (Copied parent child page m₀))
      (forkPages parent child page) fun ok => OnMem s₀ fun m' =>
        Progress parent child (virtualAddrEnd / pageSize) m₀ m' ok := by
  -- the measure of the loop: the pages still to come
  generalize hn : virtualAddrEnd / pageSize - page = n
  induction n using Nat.strong_induction_on generalizing page with
  | _ n ih =>
  have goOn : ∀ next, page < next → next ≤ virtualAddrEnd / pageSize → ∀ ok,
      (free₀ last exact t).Triple () (OnMem s₀ fun m' => Progress parent child next m₀ m' ok)
        (if ok = true then forkPages parent child next else pure false) fun ok => OnMem s₀ fun m' =>
          Progress parent child (virtualAddrEnd / pageSize) m₀ m' ok := by
    intro next lt le ok
    cases ok with
    | false => exact Triple.ret fun _ _ h => h
    | true => exact ih (virtualAddrEnd / pageSize - next) (by omega) next (by omega) le rfl
  rw [forkPages]
  split
  swap
  · rename_i outside
    obtain rfl : page = virtualAddrEnd / pageSize := by omega
    exact Triple.ret fun _ _ h => h
  rename_i inside
  have here : pageOf (page * pageSize) = page := pageOf_page inside
  have userPage : UserPage page := ⟨user, inside⟩
  refine triple_at fun m h => ?_
  obtain ⟨space₀, hd₀⟩ := Option.isSome_iff_exists.mp dir
  have hd : m.vm.abs.space parent = some space₀ := by
    rw [h.within.toApart.space fresh.ne, hd₀]
  have old : ∀ q, m₀.state parent q = some (space₀ q) := state_of_space hd₀
  refine Triple.bind (triple_askPage m parent _) fun r => triple_at fun _ told => ?_
  obtain ⟨answer, rfl⟩ := told
  have cases := checkUserPage_cases hd (here.symm ▸ userPage)
  rw [here] at cases
  rcases cases with ⟨avail, found, all⟩ |
    ⟨avail, found, state⟩ | ⟨pte, found, state, zero⟩ | ⟨pte, found, state, own⟩ <;>
    rw [found] at answer <;> subst answer
  · -- the PDE is not present
    have nextLt : page < (page / pteCount + 1) * pteCount := by
      have := Nat.lt_div_mul_add (a := page) (b := pteCount) (by decide)
      simp only [pteCount, pageSize, Nat.reduceDiv] at *
      omega
    have nextLe : (page / pteCount + 1) * pteCount ≤ virtualAddrEnd / pageSize := by
      simp only [pteCount, pageSize, virtualAddrEnd, Nat.reduceDiv] at *
      omega
    have sum : page + ((page / pteCount + 1) * pteCount - page) = (page / pteCount + 1) * pteCount :=
      Nat.add_sub_cancel' (Nat.le_of_lt nextLt)
    refine Triple.bind (triple_forkTable avail fresh here userPage h (Nat.sub_pos_of_lt nextLt)
      (sum.symm ▸ nextLe) fun q ge lt => ?_) fun ok => ?_
    · rw [sum] at lt
      have same : q / pteCount = page / pteCount := by
        simp only [pteCount, pageSize, Nat.reduceDiv] at *
        omega
      rw [old, all q same]
    · rw [sum]
      exact goOn _ nextLt nextLe ok
  · -- the PTE is not present
    refine Triple.bind (triple_askAvailability m parent _) fun r =>
      triple_at fun _ told => ?_
    obtain ⟨answer, rfl⟩ := told
    rw [getAvailability_eq.mpr ⟨space₀, hd, here.symm ▸ userPage, here.symm ▸ state⟩] at answer
    subst answer
    refine Triple.bind (triple_open h.within.wf _ _) fun ok => ?_
    refine Triple.conseq (goOn (page + 1) (Nat.lt_succ_self page) inside ok) (fun s _ k => ⟨k.1, ?_⟩)
      fun _ _ k => k
    cases ok with
    | false => exact h.toFilling.moved k.2
    | true =>
        obtain ⟨avail', bits, put⟩ := k.2
        rw [ofNat_toNat, Option.some.injEq] at bits
        subst bits
        rw [here] at put
        exact h.unmapped (by rw [old, state]) put
  · -- the zero frame
    refine Triple.bind (triple_forkZero h.within.wf _) fun ok => ?_
    refine Triple.conseq (goOn (page + 1) (Nat.lt_succ_self page) inside ok) (fun s _ k => ⟨k.1, ?_⟩)
      fun _ _ k => k
    cases ok with
    | false => exact h.toFilling.moved k.2
    | true =>
        have put := k.2
        rw [here] at put
        exact h.next put (.zero (by rw [old, state]) put.now zero (by decide))
  · -- a frame of its own
    refine Triple.bind (triple_forkPage fresh here userPage h (by rw [old, state]) own) fun ok => ?_
    exact goOn (page + 1) (Nat.lt_succ_self page) inside ok

end

end OsKernel.Syscall
