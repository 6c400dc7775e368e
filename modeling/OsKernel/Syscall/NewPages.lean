/-
`new_pages` is all or nothing.

`Taken d base lo hi m₀ m` is the state of the loops of `handle_new_pages`: of the
pages that were unavailable in `m₀` those from `lo` up to `hi` have their own cleared
frames, all others are as in `m₀`. The first loop moves `hi` (`triple_newPagesLoop`),
both rollbacks move `lo` (`triple_releasePages`), and when they meet every page is as it
was, and with the pages the pool.
-/

import OsKernel.Syscall.Page
import OsKernel.Syscall.Works

namespace OsKernel.Syscall

open OsKernel.Vm OsKernel.Memory Prog Sys

/-! ### One page -/

/-- A page has its own frame, readable and writable, and full of zeros. -/
def ZeroPage (m : Mem) (d page : Nat) : Prop :=
  ∃ pte, m.state d page = some (.mapped pte) ∧ pte.us = true ∧ pte.rw = .readWrite ∧
    pte.pageAddr * pageSize ≠ zeroFrame ∧
    ∀ off < pageSize, m.phys (pte.pageAddr * pageSize + off) = 0

/-- One page that was not mapped was given a frame, which was cleared. -/
def Cleared (d page : Nat) (m m' : Mem) : Prop :=
  ∃ pte m₁, Put True d page (.mapped pte) m m₁ ∧ pte.us = true ∧ pte.rw = .readWrite ∧
    pte.pageAddr * pageSize ≠ zeroFrame ∧
    m' = m₁.fill (pte.pageAddr * pageSize) fun _ => 0

variable {exact : Prop} {d : Nat} {m₀ m m' : Mem}

theorem Cleared.apart {page : Nat} (h : Cleared d page m m') : Within d m.vm m'.vm := by
  obtain ⟨pte, m₁, put, -, -, -, rfl⟩ := h
  exact put.within trivial

theorem Cleared.zeroPage {page : Nat} (h : Cleared d page m m') : ZeroPage m' d page := by
  obtain ⟨pte, m₁, put, us, rw, nz, rfl⟩ := h
  refine ⟨pte, put.now, us, rw, nz, fun off hoff => ?_⟩
  simp [Mem.fill, hoff]

theorem Cleared.rest {page q : Nat} (h : Cleared d page m m') (ne : q ≠ page) :
    m'.state d q = m.state d q := by
  obtain ⟨pte, m₁, put, -, -, -, rfl⟩ := h
  exact put.rest q ne

/-- Only zeros are written. -/
theorem Cleared.zeros {page a : Nat} (h : Cleared d page m m') (zero : m.phys a = 0) :
    m'.phys a = 0 := by
  obtain ⟨pte, m₁, put, -, -, -, rfl⟩ := h
  simp only [Mem.fill]
  split
  · rfl
  · rw [put.phys, zero]

variable {last : Prop} {t : Nat} {s₀ : Kernel}

/-- `map_new_frame` and `memset`. -/
theorem triple_mapAndClearNew (wf : m.vm.abs.Wf) (v : Nat) :
    (free₀ last exact t).Triple () (OnMem s₀ (Eq m)) (mapAndClearNew d v) fun r => OnMem s₀
      fun m' => bif r then Cleared d (pageOf v) m m'
        else Same d m m' ∧ m' = m.withVm (mapNewFrame m.vm d v).2 := by
  refine Triple.bind (triple_mapNewFrame m d v) fun r => triple_at fun m₁ ⟨result, mem⟩ => ?_
  rcases mapNewFrame_put wf v with ⟨fails, same⟩ |
    ⟨avail, pte, works, -, -, us, rw, -, nz, put⟩
  · rw [fails] at result
    subst result mem
    exact Triple.ret fun _ _ h => ⟨h.1, h.2 ▸ ⟨same, rfl⟩⟩
  · rw [works] at result
    subst result mem
    refine Triple.bind (Q := fun _ => OnMem s₀ (Cleared d (pageOf v) m))
      (triple_mem (.clearPage d v) trivial ?_) fun _ => Triple.ret fun _ _ h => h
    rintro s - eq
    refine ⟨pte, _, put, us, rw, nz, ?_⟩
    have frame : s.mem.frameAt d v = some (pte.pageAddr * pageSize) := by
      rw [frameAt_eq, ← eq, put.now]
      rfl
    simp only [Kernel.exec, Mem.clearPage, frame, eq]

/-- One page of `new_pages`: it was unavailable and has a cleared frame now, or
nothing has changed. -/
theorem triple_newPage (wf : m.vm.abs.Wf) (v : Nat) :
    (free₀ last exact t).Triple () (OnMem s₀ (Eq m)) (newPage d v) fun r => OnMem s₀
      fun m' => bif r then UserPage (pageOf v) ∧
          m.state d (pageOf v) = some (.unmapped .unavailable) ∧ Cleared d (pageOf v) m m'
        else Same d m m' := by
  have idle : Same d m m := ⟨.refl wf d, fun _ => rfl, rfl⟩
  refine Triple.bind (triple_askAvailability m d v) fun r => triple_at fun m₁ ⟨answer, eq⟩ => ?_
  subst eq
  rcases r with - | - | -
  · exact Triple.ret fun _ _ h => ⟨h.1, h.2 ▸ idle⟩
  swap
  · exact Triple.ret fun _ _ h => ⟨h.1, h.2 ▸ idle⟩
  obtain ⟨space, hd, user, state⟩ := getAvailability_eq.mp answer.symm
  have old : m.state d (pageOf v) = some (.unmapped .unavailable) := by
    rw [state_of_space hd, state]
  refine Triple.bind (triple_setAvailability m d v 1) fun r => triple_at fun m₁ ⟨result, mem⟩ => ?_
  rcases setAvailability_put wf v 1 with ⟨fails, same⟩ | ⟨_, avail, works, -, -, bits, put⟩
  · rw [fails] at result
    subst result mem
    exact Triple.ret fun _ _ h => ⟨h.1, h.2 ▸ same⟩
  rw [works] at result
  have made := setAvailability_makes hd state rfl (by decide) works
  cases bits
  subst result
  have table : m₁.vm.Tabled d v := by
    rw [mem]
    exact made
  rw [← mem] at put
  refine Triple.bind (triple_mapAndClearNew put.apart.wf v) fun r => triple_at fun m₂ after => ?_
  cases r with
  | true =>
      obtain ⟨pte, m₃, put', us, rw, nz, fill⟩ := after
      exact Triple.ret fun _ _ h =>
        ⟨h.1, user, old, h.2 ▸ ⟨pte, m₃, put.put put', us, rw, nz, fill⟩⟩
  | false =>
      obtain ⟨same, mem₂⟩ := after
      have table₂ : m₂.vm.Tabled d v := by
        rw [mem₂]
        exact mapNewFrame_tabled table
      refine Triple.bind (triple_setAvailability m₂ d v 0) fun r => Triple.ret fun s _ h => ?_
      have wf₂ := same.within.wf
      have sure := setAvailability_sure v 0 user ((same.state _).trans put.now) table₂ rfl
      refine ⟨h.1, ?_⟩
      rw [h.2.2]
      rcases setAvailability_put wf₂ v 0 with ⟨fails, -⟩ | ⟨_, avail, -, -, -, bits, put₂⟩
      · rw [sure] at fails
        cases fails
      · cases bits
        have whole := (put.same same).put put₂
        exact ⟨whole.within trivial, whole.back old, whole.phys⟩

/-! ### The rollbacks -/

/-- `unmap_frame` of a page that is mapped. -/
theorem triple_unmap_sure (wf : m.vm.abs.Wf)
    {v : Nat} {pte : Pte} (user : UserPage (pageOf v))
    (mapped : m.state d (pageOf v) = some (.mapped pte)) :
    (free₀ last exact t).Triple () (OnMem s₀ (Eq m)) (act (.unmapFrame d v true)) fun r => OnMem s₀
      fun m' => r = true ∧ m'.vm.Tabled d v ∧
        Put exact d (pageOf v) (.unmapped .available) m m' := by
  refine Triple.conseq (triple_unmapFrame m d v true) (fun _ _ h => h) ?_
  rintro r s ⟨same, frees, result, mem⟩
  obtain ⟨works, table, put⟩ := unmapFrame_put wf v user mapped frees
  refine ⟨same, ?_⟩
  rw [mem]
  exact ⟨result.trans works, table, put⟩

/-- `set_availability` of a page that has a page table, back to unavailable. -/
theorem triple_close (wf : m.vm.abs.Wf) {v : Nat} {old : Availability}
    (user : UserPage (pageOf v)) (state : m.state d (pageOf v) = some (.unmapped old))
    (table : m.vm.Tabled d v) :
    (free₀ last exact t).Triple () (OnMem s₀ (Eq m)) (act (.setAvailability d v 0)) fun r => OnMem s₀
      fun m' => r = true ∧ Put True d (pageOf v) (.unmapped .unavailable) m m' := by
  refine Triple.conseq (triple_setAvailability m d v 0) (fun _ _ h => h) ?_
  rintro r s ⟨same, result, mem⟩
  have sure := setAvailability_sure v 0 user state table rfl
  refine ⟨same, ?_⟩
  rw [mem]
  rcases setAvailability_put wf v 0 with ⟨fails, -⟩ | ⟨_, avail, -, -, -, bits, put⟩
  · rw [sure] at fails
    cases fails
  · cases bits
    exact ⟨result.trans sure, put⟩

theorem Put.weaken {page : Nat} {state : PageState} (h : Put True d page state m m') :
    Put exact d page state m m' :=
  ⟨h.apart, fun _ => h.within trivial, h.now, h.rest, h.phys⟩

/-- The page at the `k`-th step of a loop from `base`. -/
def nthPage (base k : Nat) : Nat := pageOf (base + k * pageSize)

/-- Where the loops of `new_pages` stand: see the top of the file. -/
structure Taken (exact : Prop) (d base lo hi : Nat) (m₀ m : Mem) : Prop where
  apart : Apart d m₀.vm m.vm
  within : exact → Within d m₀.vm m.vm
  user : ∀ k < hi, UserPage (nthPage base k)
  old : ∀ k < hi, m₀.state d (nthPage base k) = some (.unmapped .unavailable)
  injective : ∀ j < hi, ∀ k < hi, nthPage base j = nthPage base k → j = k
  new : ∀ k, lo ≤ k → k < hi → ZeroPage m d (nthPage base k)
  rest : ∀ q, (∀ k, lo ≤ k → k < hi → q ≠ nthPage base k) → m.state d q = m₀.state d q

variable {base lo hi : Nat}

theorem Taken.start (wf : m.vm.abs.Wf) (base : Nat) : Taken exact d base 0 0 m m :=
  ⟨.refl wf d, fun _ => .refl wf d, by omega, by omega, by omega, by omega, fun _ _ => rfl⟩

/-- When all pages are given back, every page is as it was. -/
theorem Taken.state (h : Taken exact d base hi hi m₀ m) (q : Nat) :
    m.state d q = m₀.state d q :=
  h.rest q fun _ ge lt => absurd ge (Nat.not_le.mpr lt)

/-- A step that leaves every page as it was. -/
theorem Taken.same (h : Taken exact d base lo hi m₀ m) (same : Same d m m') :
    Taken exact d base lo hi m₀ m' := by
  refine ⟨h.apart.trans same.within.toApart, fun e => (h.within e).trans same.within, h.user,
    h.old, h.injective, fun k ge lt => ?_, fun q outside => ?_⟩
  · obtain ⟨pte, state, us, rw, nz, zero⟩ := h.new k ge lt
    exact ⟨pte, (same.state _).trans state, us, rw, nz, by rwa [same.phys]⟩
  · exact (same.state q).trans (h.rest q outside)

theorem ZeroPage.of_cleared {page q : Nat} (h : ZeroPage m d q) (cleared : Cleared d page m m')
    (ne : q ≠ page) : ZeroPage m' d q := by
  obtain ⟨pte, state, us, rw, nz, zero⟩ := h
  exact ⟨pte, (cleared.rest ne).trans state, us, rw, nz, fun off hoff => cleared.zeros (zero off hoff)⟩

/-- A page more. -/
theorem Taken.next (h : Taken exact d base 0 hi m₀ m) (user : UserPage (nthPage base hi))
    (old : m.state d (nthPage base hi) = some (.unmapped .unavailable))
    (cleared : Cleared d (nthPage base hi) m m') : Taken exact d base 0 (hi + 1) m₀ m' := by
  -- the pages taken before are mapped, so the new one is not among them
  have other : ∀ k < hi, nthPage base k ≠ nthPage base hi := by
    intro k lt eq
    obtain ⟨pte, state, -⟩ := h.new k (Nat.zero_le k) lt
    rw [eq, old] at state
    cases state
  have within := cleared.apart
  refine ⟨h.apart.trans within.toApart, fun e => (h.within e).trans within, ?_, ?_, ?_, ?_, ?_⟩
  · intro k lt
    rcases Nat.lt_succ_iff_lt_or_eq.mp lt with lt | rfl
    · exact h.user k lt
    · exact user
  · intro k lt
    rcases Nat.lt_succ_iff_lt_or_eq.mp lt with lt | rfl
    · exact h.old k lt
    · rw [← old]
      exact (h.rest _ fun j _ lt' eq => other j lt' eq.symm).symm
  · intro j hj k hk eq
    rcases Nat.lt_succ_iff_lt_or_eq.mp hj with hj | rfl <;>
      rcases Nat.lt_succ_iff_lt_or_eq.mp hk with hk | rfl
    · exact h.injective j hj k hk eq
    · exact absurd eq (other j hj)
    · exact absurd eq.symm (other k hk)
    · rfl
  · intro k _ lt
    rcases Nat.lt_succ_iff_lt_or_eq.mp lt with lt | rfl
    · exact (h.new k (Nat.zero_le k) lt).of_cleared cleared (other k lt)
    · exact cleared.zeroPage
  · intro q outside
    rw [cleared.rest (outside hi (Nat.zero_le hi) (Nat.lt_succ_self hi))]
    exact h.rest q fun k ge lt => outside k ge (Nat.lt_succ_of_lt lt)

/-- The lowest page given back. -/
theorem Taken.release (h : Taken exact d base lo hi m₀ m) (lt : lo < hi)
    (put : Put exact d (nthPage base lo) (.unmapped .unavailable) m m') :
    Taken exact d base (lo + 1) hi m₀ m' := by
  refine ⟨h.apart.trans put.apart, fun e => (h.within e).trans (put.within e), h.user, h.old,
    h.injective, ?_, ?_⟩
  · intro k ge lt'
    obtain ⟨pte, state, us, rw, nz, zero⟩ := h.new k (by omega) lt'
    have ne : nthPage base k ≠ nthPage base lo := by
      intro eq
      have := h.injective k lt' lo lt eq
      omega
    exact ⟨pte, (put.rest _ ne).trans state, us, rw, nz, by rwa [put.phys]⟩
  · intro q outside
    by_cases here : q = nthPage base lo
    · rw [here, put.now, h.old lo lt]
    · rw [put.rest q here]
      refine h.rest q fun k ge lt' => ?_
      rcases Nat.lt_or_ge lo k with gt | le
      · exact outside k gt lt'
      · rwa [Nat.le_antisymm le ge]

theorem triple_releasePages (n lo : Nat) :
    (free₀ last exact t).Triple () (OnMem s₀ (Taken exact d base lo (lo + n) m₀))
      (releasePages d base (List.range' lo n))
      fun _ => OnMem s₀ (Taken exact d base (lo + n) (lo + n) m₀) := by
  induction n generalizing lo with
  | zero => exact Triple.ret fun _ _ h => h
  | succ n ih =>
      refine triple_at fun m taken => ?_
      have lt : lo < lo + (n + 1) := by omega
      obtain ⟨pte, state, -⟩ := taken.new lo (le_refl lo) lt
      have user := taken.user lo lt
      refine Triple.bind (triple_unmap_sure taken.apart.wf user state) fun _ => ?_
      refine triple_at fun m₁ ⟨_, table, opened⟩ => ?_
      refine Triple.bind (triple_close opened.apart.wf user opened.now table) fun _ => ?_
      refine Triple.conseq (ih (lo + 1)) (fun s _ h => ?_) fun _ s h => ?_
      · have put := opened.put (Put.weaken h.2.2)
        have := taken.release lt put
        rw [show lo + (n + 1) = lo + 1 + n by omega] at this
        exact ⟨h.1, this⟩
      · rwa [show lo + (n + 1) = lo + 1 + n by omega]

/-- All pages given back. -/
theorem triple_releaseAll (n : Nat) :
    (free₀ last exact t).Triple () (OnMem s₀ (Taken exact d base 0 n m₀))
      (releasePages d base (List.range n)) fun _ => OnMem s₀ (Taken exact d base n n m₀) := by
  have release : (free₀ last exact t).Triple () (OnMem s₀ (Taken exact d base 0 (0 + n) m₀))
      (releasePages d base (List.range' 0 n))
      fun _ => OnMem s₀ (Taken exact d base (0 + n) (0 + n) m₀) := triple_releasePages n 0
  rwa [← List.range_eq_range', Nat.zero_add] at release

/-- The loop of `new_pages`, with its rollback. -/
theorem triple_newPagesLoop (n i : Nat) :
    (free₀ last exact t).Triple () (OnMem s₀ (Taken exact d base 0 i m₀)) (newPagesLoop d base i n)
      fun r => OnMem s₀ fun m => bif r then Taken exact d base 0 (i + n) m₀ m
        else ∃ k, Taken exact d base k k m₀ m := by
  induction n generalizing i with
  | zero => exact Triple.ret fun _ _ h => h
  | succ n ih =>
      refine triple_at fun m taken => ?_
      refine Triple.bind (triple_newPage taken.apart.wf _) fun r => ?_
      cases r with
      | true =>
          refine Triple.conseq (ih (i + 1)) (fun s _ h => ?_) fun r s h => ?_
          · obtain ⟨same, user, old, cleared⟩ := h
            exact ⟨same, taken.next user old cleared⟩
          · rwa [show i + (n + 1) = i + 1 + n by omega]
      | false =>
          refine Triple.bind (Triple.conseq (triple_releaseAll i) (fun s _ h => ?_) fun _ _ h => h)
            fun _ => Triple.ret fun _ _ h => ⟨h.1, i, h.2⟩
          exact ⟨h.1, taken.same h.2⟩

/-! ### The call -/

theorem triple_malloc (wf : m.vm.abs.Wf) (d size : Nat) :
    (free₀ last exact t).Triple () (OnMem s₀ (Eq m)) (act (.malloc size)) fun _ => OnMem s₀
      (Same d m) := by
  refine triple_mem (.malloc size) trivial ?_
  rintro s - rfl
  simp only [Kernel.exec]
  split
  · exact ⟨.refl wf d, fun _ => rfl, rfl⟩
  · exact ⟨within_malloc wf d, fun _ => rfl, rfl⟩

/-- `new_pages` has failed: all pages that it took are given back. -/
structure Refused (exact : Prop) (base : Nat) (m m' : Machine) : Prop where
  ctl : SameCtl m m'
  procs : SameProcs m.kernel m'.kernel
  taken : ∃ k, Taken exact m.cr3 base k k m.kernel.mem m'.kernel.mem

/-- `new_pages` has taken all its pages and recorded them. -/
structure Granted (exact : Prop) (base : Nat) (len : Int) (m m' : Machine) (count : Nat) : Prop where
  ctl : SameCtl m m'
  aligned : base / pageSize * pageSize = base
  pos : 0 < count
  len_eq : len = count * pageSize
  taken : Taken exact m.cr3 base 0 count m.kernel.mem m'.kernel.mem
  thread : m'.kernel.thread = m.kernel.thread
  threadCount : m'.kernel.threadCount = m.kernel.threadCount
  procs : ∃ p pr, m.kernel.thread m.running = some p ∧ m.kernel.procs p = some pr ∧
    m'.kernel.procs = Function.update m.kernel.procs p
      (some { pr with allocs := insertAllocation base len pr.allocs })

theorem exec_setAllocations {t p : Nat} {s : Kernel} {pr : Proc} (thread : s.thread t = some p)
    (proc : s.procs p = some pr) (allocs : List (Nat × Int)) :
    Kernel.exec t (.setAllocations allocs) s =
      ({ s with procs := Function.update s.procs p (some { pr with allocs := allocs }) }, ()) := by
  simp [Kernel.exec, Kernel.proc, thread, proc]

/-- The end of `handle_new_pages`: the record, or the second rollback. -/
theorem triple_record {m₀ : Machine} {p count : Nat} {pr : Proc}
    (thread : m₀.kernel.thread m₀.running = some p) (proc : m₀.kernel.procs p = some pr)
    {len : Int} (aligned : base / pageSize * pageSize = base) (pos : 0 < count)
    (len_eq : len = count * pageSize) :
    (call m₀.running (stays m₀.running) exact).Triple () (fun m => SameCtl m₀ m ∧
        OnMem m₀.kernel (Taken exact m₀.cr3 base 0 count m₀.kernel.mem) m.kernel)
      (do
        if ← mem (.malloc recordSize) then
          mem (.setAllocations (insertAllocation base len pr.allocs))
          pure true
        else
          lift (releasePages m₀.cr3 base (List.range count))
          pure false)
      fun ok m' => bif ok then ∃ count, Granted exact base len m₀ m' count
        else Refused exact base m₀ m' := by
  refine Triple.bind (triple_lift_act (Q := fun _ => OnMem m₀.kernel
    (Taken exact m₀.cr3 base 0 count m₀.kernel.mem)) rfl trivial ?_) fun ok => ?_
  · refine triple_at fun m₁ taken => ?_
    exact Triple.conseq (triple_malloc taken.apart.wf m₀.cr3 _) (fun _ _ h => h)
      fun _ _ h => ⟨h.1, taken.same h.2⟩
  cases ok with
  | false =>
      refine Triple.bind (triple_lift rfl (via_of_works (works_releasePages _ _ _))
        (triple_releaseAll _)) fun _ => Triple.ret fun m' _ h => ?_
      exact ⟨h.1, h.2.1, _, h.2.2⟩
  | true =>
      refine Triple.bind (Q := fun _ m' => Granted exact base len m₀ m' count)
        (Triple.atOnce ?_) fun _ => Triple.ret fun m' _ h => ⟨_, h⟩
      rintro m₁ ⟨running, alive⟩ - ⟨ctl, procs, taken⟩
      have thread₁ : m₁.kernel.thread m₁.running = some p := by
        rw [running, procs.thread, thread]
      have proc₁ : m₁.kernel.procs p = some pr := by rw [procs.procs, proc]
      have done : Machine.exec (.mem (.setAllocations (insertAllocation base len pr.allocs)))
          m₁ = (m₁.setKernel { m₁.kernel with
            procs := Function.update m₁.kernel.procs p
              (some { pr with allocs := insertAllocation base len pr.allocs }) }, ()) := by
        simp only [Machine.exec, exec_setAllocations thread₁ proc₁]
      rw [done]
      refine ⟨⟨running, alive⟩, fun _ => ⟨ctl, aligned, pos, len_eq, taken, procs.thread,
        procs.threadCount, p, pr, thread, proc, ?_⟩⟩
      rw [← procs.procs]
      rfl

/-- `handle_new_pages` -/
theorem triple_newPages {m : Machine} (wf : m.kernel.mem.vm.abs.Wf) (base : Nat) (len : Int)
    (physFrames : Nat) :
    (call m.running (stays m.running) exact).Triple () (Eq m) (newPages base len physFrames)
      fun ok m' => bif ok then ∃ count, Granted exact base len m m' count
        else Refused exact base m m' := by
  have idle : Refused exact base m m := ⟨.refl m, .refl m.kernel, 0, .start wf base⟩
  refine Triple.bind triple_look fun m₀ => ?_
  refine Triple.bind (Q := fun pr m' => m₀ = m ∧ m = m' ∧ pr = m.kernel.proc m.running)
    (Triple.atOnce ?_) fun pr => ?_
  · rintro _ holds - ⟨rfl, rfl⟩
    exact ⟨holds, fun _ => ⟨rfl, rfl, rfl⟩⟩
  cases pr with
  | none => exact Triple.ret fun _ _ h => h.2.1 ▸ idle
  | some pr =>
      rintro m' holds live ⟨rfl, rfl, proc⟩
      obtain ⟨p, thread, proc⟩ := Option.bind_eq_some_iff.mp proc.symm
      suffices h : (call m₀.running (stays m₀.running) exact).Triple () (fun m => SameCtl m₀ m ∧
          OnMem m₀.kernel (Taken exact m₀.cr3 base 0 0 m₀.kernel.mem) m.kernel) _ _ from
        h m₀ holds live ⟨.refl m₀, .refl m₀.kernel, .start wf base⟩
      dsimp only
      split
      swap
      · exact Triple.ret fun m' _ h => ⟨h.1, h.2.1, 0, h.2.2⟩
      rename_i fits
      obtain ⟨aligned, pos, -, len_eq⟩ := fits
      refine Triple.bind (triple_lift rfl (via_of_works (works_newPagesLoop _ base 0 _))
        (triple_newPagesLoop _ 0)) fun ok => ?_
      cases ok with
      | false => exact Triple.ret fun m' _ h => ⟨h.1, h.2.1, h.2.2⟩
      | true =>
          rw [Nat.zero_add]
          refine triple_record thread proc aligned (by omega) ?_
          rw [Int.toNat_of_nonneg (Int.le_of_lt pos), len_eq]

/-! ### All or nothing -/

theorem space_of_state (same : ∀ q, m'.state d q = m.state d q) :
    m'.vm.abs.space d = m.vm.abs.space d := by
  simp only [Mem.state] at same
  cases new : m'.vm.abs.space d with
  | none =>
      have := same 0
      rw [new] at this
      exact (Option.map_eq_none_iff.mp this.symm).symm
  | some space =>
      obtain ⟨space₀, old, -⟩ := Option.map_eq_some_iff.mp ((same 0).symm.trans (by rw [new]; rfl))
      rw [old, Option.some.injEq]
      funext q
      have := same q
      rw [new, old] at this
      exact Option.some.inj this

/-- The records of all processes, the pages of all directories and the pool are the
same. -/
structure AsBefore (m m' : Machine) : Prop where
  records : m'.kernel.procs = m.kernel.procs
  pages : ∀ d, m'.kernel.mem.vm.abs.space d = m.kernel.mem.vm.abs.space d
  pool : m'.kernel.mem.vm.allocList = m.kernel.mem.vm.allocList

/-- No other page of any directory has the frame of this one. -/
def OwnFrame (m : Mem) (d page : Nat) : Prop :=
  ∀ f, m.vm.abs.Maps d page f → ∀ e q, m.vm.abs.Maps e q f → e = d ∧ q = page

/-- The pages of the range, which were unavailable, are mapped to frames of their own,
full of zeros, and there is one record more. -/
structure Added (base : Nat) (len : Int) (m m' : Machine) : Prop where
  pages : ∃ count : Nat, 0 < count ∧ len = count * pageSize ∧ ∀ k < count,
    UserPage (nthPage base k) ∧
    m.kernel.mem.state m.cr3 (nthPage base k) = some (.unmapped .unavailable) ∧
    ZeroPage m'.kernel.mem m.cr3 (nthPage base k) ∧
    OwnFrame m'.kernel.mem m.cr3 (nthPage base k)
  record : ∃ p pr before after, m.kernel.thread m.running = some p ∧
    m.kernel.procs p = some pr ∧ pr.allocs = before ++ after ∧
    m'.kernel.procs = Function.update m.kernel.procs p
      (some { pr with allocs := before ++ (base, len) :: after })

theorem insertAllocation_split (base : Nat) (len : Int) (allocs : List (Nat × Int)) :
    ∃ before after, allocs = before ++ after ∧
      insertAllocation base len allocs = before ++ (base, len) :: after := by
  induction allocs with
  | nil => exact ⟨[], [], rfl, rfl⟩
  | cons r rs ih =>
      unfold insertAllocation
      split
      · exact ⟨[], r :: rs, rfl, rfl⟩
      · obtain ⟨before, after, rfl, eq⟩ := ih
        exact ⟨r :: before, after, rfl, by rw [eq]; rfl⟩

theorem Taken.ownFrame (h : Taken exact d base lo hi m₀ m) {k : Nat} (ge : lo ≤ k) (lt : k < hi) :
    OwnFrame m d (nthPage base k) := by
  intro f maps e q maps'
  obtain ⟨pte, state, -, -, nz, -⟩ := h.new k ge lt
  obtain ⟨space, hd, state⟩ := Option.map_eq_some_iff.mp state
  have maps'' := maps_of_state hd (h.user k lt) state
  obtain ⟨-, space', hd', frame⟩ := maps
  obtain ⟨-, space'', hd'', frame'⟩ := maps''
  rw [hd', Option.some.injEq] at hd''
  subst hd''
  rw [frame, Option.some.injEq] at frame'
  rw [← frame'] at nz
  exact h.apart.wf.injective e d q _ f maps' ⟨h.user k lt, space', hd', frame⟩ nz

theorem Refused.asBefore {m m' : Machine} (wf : m.kernel.mem.vm.abs.Wf)
    (h : Refused True base m m') : AsBefore m m' := by
  obtain ⟨k, taken⟩ := h.taken
  have same := space_of_state taken.state
  refine ⟨h.procs.procs, fun e => ?_, (taken.within trivial).pool wf same⟩
  by_cases here : e = m.cr3
  · rw [here, same]
  · exact taken.apart.space here

theorem Granted.added {m m' : Machine} {len : Int} {count : Nat}
    (h : Granted exact base len m m' count) : Added base len m m' := by
  obtain ⟨p, pr, thread, proc, procs⟩ := h.procs
  obtain ⟨before, after, split, inserted⟩ := insertAllocation_split base len pr.allocs
  refine ⟨⟨count, h.pos, h.len_eq, fun k lt => ?_⟩, p, pr, before, after, thread, proc, split, ?_⟩
  · exact ⟨h.taken.user k lt, h.taken.old k lt, h.taken.new k (Nat.zero_le k) lt,
      h.taken.ownFrame (Nat.zero_le k) lt⟩
  · rw [procs, inserted]

/-- `new_pages` always returns. When it returns -1 nothing has changed; when it returns
0 every page of the range has a frame of its own and there is one record more. -/
theorem newPages_all_or_nothing {m : Machine} (wf : m.kernel.mem.vm.abs.Wf) (live : m.live = true)
    (base : Nat) (len : Int) (physFrames : Nat) (frees : m.Frees (newPages base len physFrames)) :
    ∃ m' ok, m.eval (newPages base len physFrames) = (m', some ok) ∧
      if ok then Added base len m m' else AsBefore m m' := by
  have triple : (call m.running (stays m.running) True).Triple () (Eq m) _ _ :=
    triple_newPages wf base len physFrames
  obtain ⟨m', ok, ran, -, post⟩ := triple.ends lives ⟨rfl, fun _ => live⟩ rfl frees.admitted
  refine ⟨m', ok, ran, ?_⟩
  cases ok with
  | true =>
      obtain ⟨count, granted⟩ := post
      exact granted.added
  | false => exact Refused.asBefore wf post

/-- Two pages at the start of user space. -/
theorem newPages_all_or_nothing_two_pages :
    ∃ m m', boot 4100 (fun _ => true) (fun _ => 255) emptyCtl = some m ∧
      m.eval (newPages userMemStart 8192 4100) = (m', some true) ∧
      Added userMemStart 8192 m m' := by
  have ran : (boot 4100 (fun _ => true) (fun _ => 255) emptyCtl).map (fun m =>
      (m.live, decide (m.Frees (newPages userMemStart 8192 4100)),
        (m.eval (newPages userMemStart 8192 4100)).2)) = some (true, true, some true) := by
    decide +kernel
  obtain ⟨m, started, eq⟩ := Option.map_eq_some_iff.mp ran
  simp only [Prod.mk.injEq, decide_eq_true_eq] at eq
  obtain ⟨m', ok, ran', post⟩ := newPages_all_or_nothing (boot_wf (by decide) started) eq.1
    userMemStart 8192 4100 eq.2.1
  have yes := eq.2.2
  rw [ran', Option.some.injEq] at yes
  subst yes
  exact ⟨m, m', started, ran', post⟩

end OsKernel.Syscall
