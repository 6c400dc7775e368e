/-
The records of `new_pages`, and `remove_pages`.

`Recorded m d allocs` is what a list of records says about a directory: the records
ascend and do not overlap, they lie in user space, and every page of theirs has a
private frame that may be written. The search of `remove_pages` finds a record at the
head of such a list and nowhere else (`findAllocation_ascending`). Its loop then never
fails in the middle (`triple_removeLoop`); `Gone` says where it stands, down to the
nodes that `free_frame` got or did not get.
-/

import OsKernel.Syscall.NewPages

namespace OsKernel.Syscall

open OsKernel.Vm OsKernel.Memory Prog Sys

/-! ### Lists of records -/

/-- A record of whole pages of user space. -/
structure InUser (r : Nat × Int) : Prop where
  aligned : pageSize ∣ r.1
  low : userMemStart ≤ r.1
  pages : ∃ count : Nat, 0 < count ∧ r.2 = count * pageSize ∧
    r.1 + count * pageSize ≤ virtualAddrEnd

/-- The records ascend and do not overlap, in user space. -/
structure Ascending (allocs : List (Nat × Int)) : Prop where
  disjoint : allocs.Pairwise fun a b => (a.1 : Int) + a.2 ≤ b.1
  user : ∀ r ∈ allocs, InUser r

theorem InUser.pos {r : Nat × Int} (h : InUser r) : 0 < r.2 := by
  obtain ⟨count, pos, eq, -⟩ := h.pages
  rw [eq]
  simp only [pageSize]
  omega

theorem Ascending.strict {allocs : List (Nat × Int)} (h : Ascending allocs) :
    allocs.Pairwise fun a b => a.1 < b.1 := by
  refine h.disjoint.imp_of_mem fun {a b} ha _ le => ?_
  have := (h.user a ha).pos
  omega

theorem Ascending.nil : Ascending [] := ⟨.nil, by simp⟩

theorem Ascending.tail {r : Nat × Int} {allocs : List (Nat × Int)} (h : Ascending (r :: allocs)) :
    Ascending allocs :=
  ⟨(List.pairwise_cons.mp h.disjoint).2, fun s hs => h.user s (List.mem_cons_of_mem r hs)⟩

/-- The search of `remove_pages` in an ascending list stops before it comes to the
record, unless that is the head. -/
theorem findAllocation_ascending {base : Nat} {len : Int} {allocs rest : List (Nat × Int)}
    (h : allocs.Pairwise fun a b => a.1 < b.1) :
    findAllocation base allocs = some (len, rest) ↔ allocs = (base, len) :: rest := by
  induction allocs generalizing len rest with
  | nil => simp [findAllocation]
  | cons r rs ih =>
      obtain ⟨b, l⟩ := r
      unfold findAllocation
      by_cases head : b = base
      · simp [head]
      rw [if_neg head]
      cases rs with
      | nil => simp [head]
      | cons next rs =>
          dsimp only
          split
          · rename_i below
            cases found : findAllocation base (next :: rs) with
            | none => simp [head]
            | some out =>
                have := (ih (List.pairwise_cons.mp h).2).mp found
                rw [(List.cons_eq_cons.mp this).1] at below
                exact absurd below (Nat.lt_irrefl base)
          · simp [head]

/-- A record that starts where no other one lies keeps the list ascending. -/
theorem Ascending.insert {base : Nat} {len : Int} {allocs : List (Nat × Int)}
    (h : Ascending allocs) (new : InUser (base, len))
    (apart : ∀ r ∈ allocs, (r.1 : Int) + r.2 ≤ base ∨ (base : Int) + len ≤ r.1) :
    Ascending (insertAllocation base len allocs) := by
  induction allocs with
  | nil => exact ⟨List.pairwise_singleton _ _, by simpa [insertAllocation] using new⟩
  | cons r rs ih =>
      have pos := new.pos
      have rpos := (h.user r (by simp)).pos
      obtain ⟨first, others⟩ := List.pairwise_cons.mp h.disjoint
      unfold insertAllocation
      split
      · rename_i below
        have before : (base : Int) + len ≤ r.1 := by
          rcases apart r (by simp) with le | le <;> omega
        refine ⟨List.pairwise_cons.mpr ⟨fun s hs => ?_, h.disjoint⟩, ?_⟩
        · rcases List.mem_cons.mp hs with rfl | hs
          · exact before
          · have := first s hs
            dsimp only
            omega
        · intro s hs
          rcases List.mem_cons.mp hs with rfl | hs
          · exact new
          · exact h.user s hs
      · rename_i above
        have after : (r.1 : Int) + r.2 ≤ base := by
          rcases apart r (by simp) with le | le
          · exact le
          · dsimp only at pos
            omega
        have rest := ih h.tail fun s hs => apart s (List.mem_cons_of_mem r hs)
        refine ⟨List.pairwise_cons.mpr ⟨fun s hs => ?_, rest.disjoint⟩, ?_⟩
        · obtain ⟨before, after', split, eq⟩ := insertAllocation_split base len rs
          rw [eq] at hs
          have : s = (base, len) ∨ s ∈ rs := by
            rw [split]
            simp only [List.mem_append, List.mem_cons] at hs ⊢
            tauto
          rcases this with rfl | hs
          · exact after
          · exact first s hs
        · intro s hs
          rcases List.mem_cons.mp hs with rfl | hs
          · exact h.user s (by simp)
          · exact rest.user s hs

/-! ### Pages of a record -/

/-- A page has a private frame that may be written. -/
def Private (m : Mem) (d page : Nat) : Prop :=
  ∃ pte, m.state d page = some (.mapped pte) ∧ pte.us = true ∧ pte.rw = .readWrite ∧
    pte.pageAddr * pageSize ≠ zeroFrame

/-- A page of a list of records. -/
def InRecords (allocs : List (Nat × Int)) (page : Nat) : Prop :=
  ∃ r ∈ allocs, ∃ k : Nat, (k * pageSize : Int) < r.2 ∧ page = nthPage r.1 k

/-- What the records of a process say about its directory. -/
structure Recorded (m : Mem) (d : Nat) (allocs : List (Nat × Int)) : Prop extends
    Ascending allocs where
  mapped : ∀ page, InRecords allocs page → Private m d page

/-- The pages of a range that does not run past the end are numbered in order. -/
theorem nthPage_eq {base k : Nat} (aligned : pageSize ∣ base)
    (lt : base + k * pageSize < virtualAddrEnd) : nthPage base k = base / pageSize + k := by
  obtain ⟨n, rfl⟩ := aligned
  simp only [nthPage, pageOf, pageSize, virtualAddrEnd] at *
  omega

theorem InUser.nth {r : Nat × Int} (h : InUser r) {k : Nat} (lt : (k * pageSize : Int) < r.2) :
    nthPage r.1 k = r.1 / pageSize + k ∧ UserPage (nthPage r.1 k) := by
  obtain ⟨count, pos, eq, le⟩ := h.pages
  have low := h.low
  have lt' : r.1 + k * pageSize < virtualAddrEnd := by
    rw [eq] at lt
    simp only [pageSize, virtualAddrEnd] at *
    omega
  have page := nthPage_eq h.aligned lt'
  refine ⟨page, ?_⟩
  obtain ⟨n, hn⟩ := h.aligned
  rw [page]
  unfold UserPage
  simp only [kernelPageCount, userPageStart, userMemStart, pageSize, virtualAddrEnd] at *
  omega

theorem Recorded.nil (m : Mem) (d : Nat) : Recorded m d [] :=
  ⟨.nil, fun _ h => by
    obtain ⟨r, hr, -⟩ := h
    simp at hr⟩

/-! ### The loop of `remove_pages` -/

section
variable {last exact : Prop} {t d base : Nat} {s₀ : Kernel} {m₀ m m' : Mem}

/-- A page with its frame was closed: the frame is in the pool if there was a node for
it. -/
structure Closed (d page : Nat) (m m' : Mem) : Prop where
  put : Put False d page (.unmapped .unavailable) m m'
  oracle : m'.vm.oracle = fun i => m.vm.oracle (i + 1)
  pool : ∀ f, f ∈ m'.vm.allocList ↔
    f ∈ m.vm.allocList ∨ m.vm.oracle 0 = true ∧ m.vm.abs.Maps d page f

theorem unmapFrame_closes (wf : m.vm.abs.Wf) {v : Nat} (user : UserPage (pageOf v))
    (own : Private m d (pageOf v)) :
    (unmapFrame m.vm d v).2.oracle = (fun i => m.vm.oracle (i + 1)) ∧
      ∀ f, f ∈ (unmapFrame m.vm d v).2.allocList ↔
        f ∈ m.vm.allocList ∨ m.vm.oracle 0 = true ∧ m.vm.abs.Maps d (pageOf v) f := by
  obtain ⟨pte, mapped, -, -, nz⟩ := own
  obtain ⟨space, hd, state⟩ := Option.map_eq_some_iff.mp mapped
  obtain ⟨oracle, pool⟩ := unmapFrame_pool wf hd user state nz
  refine ⟨oracle, fun f => (pool f).trans (or_congr_right (and_congr_right fun _ => ?_))⟩
  have maps := maps_of_state hd user state
  constructor
  · rintro rfl
    exact maps
  · rintro ⟨-, space', hd', frame⟩
    rw [hd, Option.some.injEq] at hd'
    subst hd'
    rw [state, PageState.frame?, Option.some.injEq] at frame
    exact frame.symm

/-- One page of `remove_pages`. -/
theorem triple_removePage (wf : m.vm.abs.Wf) {v : Nat} (user : UserPage (pageOf v))
    (own : Private m d (pageOf v)) :
    (free₀ last exact t).Triple () (OnMem s₀ (Eq m)) (removePage d v) fun r => OnMem s₀
      fun m' => r = true ∧ Closed d (pageOf v) m m' := by
  obtain ⟨oracle, pool⟩ := unmapFrame_closes wf user own
  obtain ⟨pte, mapped, -, -, nz⟩ := own
  obtain ⟨works, table, opened⟩ := unmapFrame_put wf v user mapped False.elim
  refine Triple.bind (triple_unmapFrame m d v true) fun r => triple_at fun m₁ ⟨_, result, mem⟩ => ?_
  rw [works] at result
  subst result
  rw [← mem] at opened
  have table₁ : m₁.vm.Tabled d v := by
    rw [mem]
    exact table
  refine Triple.conseq (triple_setAvailability m₁ d v 0) (fun _ _ h => h) ?_
  rintro r s ⟨same, result, mem'⟩
  obtain ⟨space, hd, state⟩ := Option.map_eq_some_iff.mp opened.now
  obtain ⟨pd, eq, -⟩ := setAvailability_tabled (n := 0) hd user state table₁ rfl
  have sure := setAvailability_sure v 0 user opened.now table₁ rfl
  have closes : Put True d (pageOf v) (.unmapped .unavailable) m₁ s.mem := by
    rw [mem']
    rcases setAvailability_put opened.apart.wf v 0 with ⟨fails, -⟩ | ⟨_, avail, -, -, -, bits, put⟩
    · rw [sure] at fails
      cases fails
    · cases bits
      exact put
  refine ⟨same, result.trans sure, opened.put closes.weaken, ?_, fun f => ?_⟩
  · rw [mem', Mem.withVm, eq, mem]
    exact oracle
  · rw [mem', Mem.withVm, eq, mem]
    exact pool f

/-- Where the loop of `remove_pages` stands after `n` pages. -/
structure Gone (d base n : Nat) (m₀ m : Mem) : Prop where
  apart : Apart d m₀.vm m.vm
  gone : ∀ k < n, m.state d (nthPage base k) = some (.unmapped .unavailable)
  rest : ∀ q, (∀ k < n, q ≠ nthPage base k) → m.state d q = m₀.state d q
  phys : m.phys = m₀.phys
  oracle : m.vm.oracle = fun i => m₀.vm.oracle (i + n)
  pool : ∀ f, f ∈ m.vm.allocList ↔ f ∈ m₀.vm.allocList ∨
    ∃ k < n, m₀.vm.oracle k = true ∧ m₀.vm.abs.Maps d (nthPage base k) f

theorem Gone.start (wf : m.vm.abs.Wf) (d base : Nat) : Gone d base 0 m m :=
  ⟨.refl wf d, by omega, fun _ _ => rfl, rfl, rfl, fun f => by simp⟩

theorem maps_congr {q f : Nat} (state : m'.state d q = m.state d q) :
    m'.vm.abs.Maps d q f ↔ m.vm.abs.Maps d q f := by
  simp only [Mem.state] at state
  constructor
  · rintro ⟨user, space, hd, frame⟩
    rw [hd] at state
    obtain ⟨space', hd', same⟩ := Option.map_eq_some_iff.mp state.symm
    exact ⟨user, space', hd', by rw [same]; exact frame⟩
  · rintro ⟨user, space, hd, frame⟩
    rw [hd] at state
    obtain ⟨space', hd', same⟩ := Option.map_eq_some_iff.mp state
    exact ⟨user, space', hd', by rw [same]; exact frame⟩

/-- A page more. -/
theorem Gone.next {n : Nat} (h : Gone d base n m₀ m)
    (other : ∀ k < n, nthPage base n ≠ nthPage base k)
    (closed : Closed d (nthPage base n) m m') : Gone d base (n + 1) m₀ m' := by
  refine ⟨h.apart.trans closed.put.apart, ?_, ?_, closed.put.phys.trans h.phys, ?_, fun f => ?_⟩
  · intro k lt
    rcases Nat.lt_succ_iff_lt_or_eq.mp lt with lt | rfl
    · rw [closed.put.rest _ (other k lt).symm]
      exact h.gone k lt
    · exact closed.put.now
  · intro q outside
    rw [closed.put.rest q (outside n (Nat.lt_succ_self n))]
    exact h.rest q fun k lt => outside k (Nat.lt_succ_of_lt lt)
  · rw [closed.oracle, h.oracle]
    funext i
    exact congrArg m₀.vm.oracle (by omega)
  · have first : m.vm.oracle 0 = m₀.vm.oracle n := by
      rw [h.oracle]
      exact congrArg m₀.vm.oracle (Nat.zero_add n)
    rw [closed.pool, h.pool, first, maps_congr (h.rest _ other), or_assoc]
    refine or_congr_right ⟨?_, ?_⟩
    · rintro (⟨k, lt, rest⟩ | now)
      · exact ⟨k, Nat.lt_succ_of_lt lt, rest⟩
      · exact ⟨n, Nat.lt_succ_self n, now⟩
    · rintro ⟨k, lt, rest⟩
      rcases Nat.lt_succ_iff_lt_or_eq.mp lt with lt | rfl
      · exact .inl ⟨k, lt, rest⟩
      · exact .inr rest

theorem triple_removeLoop {count : Nat} (user : ∀ k < count, UserPage (nthPage base k))
    (own : ∀ k < count, Private m₀ d (nthPage base k))
    (injective : ∀ j < count, ∀ k < count, nthPage base j = nthPage base k → j = k) (n lo : Nat)
    (le : lo + n = count) :
    (free₀ last exact t).Triple () (OnMem s₀ (Gone d base lo m₀))
      (forAll (removePage d) ((List.range' lo n).map fun i => base + i * pageSize))
      fun r => OnMem s₀ fun m => r = true ∧ Gone d base count m₀ m := by
  induction n generalizing lo with
  | zero =>
      cases le
      exact Triple.ret fun _ _ h => ⟨h.1, rfl, h.2⟩
  | succ n ih =>
      refine triple_at fun m gone => ?_
      have lt : lo < count := by omega
      have other : ∀ k < lo, nthPage base lo ≠ nthPage base k := by
        intro k hk eq
        have := injective lo lt k (by omega) eq
        omega
      have own' : Private m d (nthPage base lo) := by
        obtain ⟨pte, state, rest⟩ := own lo lt
        exact ⟨pte, (gone.rest _ other).trans state, rest⟩
      refine Triple.bind (triple_removePage gone.apart.wf (user lo lt) own') fun r =>
        triple_at fun m₁ ⟨result, closed⟩ => ?_
      subst result
      refine Triple.conseq (ih (lo + 1) (by omega)) (fun s _ h => ⟨h.1, ?_⟩) fun _ _ h => h
      rw [← h.2]
      exact gone.next other closed

end

/-! ### The call -/

theorem Recorded.own {m : Mem} {d base count : Nat} {allocs : List (Nat × Int)}
    (h : Recorded m d allocs) (mem : (base, (count * pageSize : Int)) ∈ allocs) :
    (∀ k < count, UserPage (nthPage base k)) ∧ (∀ k < count, Private m d (nthPage base k)) ∧
      ∀ j < count, ∀ k < count, nthPage base j = nthPage base k → j = k := by
  have below : ∀ k < count, (k * pageSize : Int) < count * pageSize := by
    intro k lt
    simp only [pageSize]
    omega
  have user := h.user _ mem
  refine ⟨fun k lt => (user.nth (below k lt)).2,
    fun k lt => h.mapped _ ⟨_, mem, k, below k lt, rfl⟩, fun j hj k hk eq => ?_⟩
  have hj' := (user.nth (below j hj)).1
  have hk' := (user.nth (below k hk)).1
  dsimp only at hj' hk'
  omega

/-- `remove_pages` has removed the record at the head of the list. -/
structure Removed (base count p : Nat) (pr : Proc) (rest : List (Nat × Int)) (m m' : Machine) :
    Prop where
  head : pr.allocs = (base, (count * pageSize : Int)) :: rest
  ctl : m'.toCtl = { m.toCtl with tlb := fun _ => none }
  thread : m'.kernel.thread = m.kernel.thread
  threadCount : m'.kernel.threadCount = m.kernel.threadCount
  procs : m'.kernel.procs = Function.update m.kernel.procs p (some { pr with allocs := rest })
  gone : Gone m.cr3 base count m.kernel.mem m'.kernel.mem

/-- How `remove_pages` ends. -/
def RemoveEnds (base p : Nat) (pr : Proc) (m : Machine) : Removal → Machine → Prop
  | .notFound, m' => m' = m ∧ ∀ len rest, pr.allocs ≠ (base, len) :: rest
  | .stuck, _ => False
  | .removed, m' => ∃ count rest, Removed base count p pr rest m m'

/-- `handle_remove_pages` -/
theorem triple_removePages {exact : Prop} {m : Machine} (wf : m.kernel.mem.vm.abs.Wf) {p : Nat}
    {pr : Proc} (thread : m.kernel.thread m.running = some p) (proc : m.kernel.procs p = some pr)
    (recorded : Recorded m.kernel.mem m.cr3 pr.allocs) (base : Nat) :
    (call m.running (stays m.running) exact).Triple () (Eq m) (removePages base)
      (RemoveEnds base p pr m) := by
  refine Triple.bind triple_look fun m₀ => ?_
  refine Triple.bind (Q := fun r m' => m₀ = m ∧ m = m' ∧ r = some pr) (Triple.atOnce ?_) fun r => ?_
  · rintro _ holds - ⟨rfl, rfl⟩
    refine ⟨holds, fun _ => ⟨rfl, rfl, ?_⟩⟩
    simp [Machine.exec, Kernel.exec, Kernel.proc, thread, proc]
  rintro m' holds live ⟨rfl, rfl, rfl⟩
  dsimp only
  cases found : findAllocation base pr.allocs with
  | none =>
      refine ⟨rfl, fun len rest eq => ?_⟩
      rw [(findAllocation_ascending recorded.strict).mpr eq] at found
      cases found
  | some out =>
      obtain ⟨len, rest⟩ := out
      have head := (findAllocation_ascending recorded.strict).mp found
      have here : (base, len) ∈ pr.allocs := by simp [head]
      have user := recorded.user _ here
      obtain ⟨count, -, len_eq, -⟩ := user.pages
      dsimp only at len_eq
      subst len_eq
      obtain ⟨users, own, injective⟩ := recorded.own here
      -- the record goes first, so that the loop runs with the shorter list
      let s₁ : Kernel := { m₀.kernel with
        procs := Function.update m₀.kernel.procs p (some { pr with allocs := rest }) }
      suffices h : (call m₀.running (stays m₀.running) exact).Triple () (Eq m₀) _ _ from
        h m₀ holds live rfl
      refine Triple.bind (Q := fun _ m' => SameCtl m₀ m' ∧
        OnMem s₁ (Gone m₀.cr3 base 0 m₀.kernel.mem) m'.kernel) (Triple.atOnce ?_) fun _ => ?_
      · rintro m₁ ⟨running, alive⟩ - rfl
        have done : Machine.exec (.mem (.setAllocations rest)) m₀ = (m₀.setKernel s₁, ()) := by
          simp only [Machine.exec, exec_setAllocations thread proc]
          rfl
        rw [done]
        exact ⟨⟨running, alive⟩, fun _ => ⟨.refl m₀, ⟨rfl, rfl, rfl⟩, .start wf _ _⟩⟩
      have pages : recordPages base (count * pageSize) =
          (List.range' 0 count).map fun i => base + i * pageSize := by
        rw [recordPages, List.range_eq_range']
        congr 2
        simp only [pageSize]
        omega
      rw [pages]
      refine Triple.bind (triple_lift rfl (via_of_works (works_removeLoop _ _))
        (triple_removeLoop users own injective count 0 (Nat.zero_add count))) fun ok => ?_
      cases ok with
      | false => exact Triple.ret fun _ _ h => by simpa using h.2.2.1
      | true =>
          refine Triple.bind (Q := fun _ m' => Removed base count p pr rest m₀ m')
            (triple_ctl (fun _ => rfl) ?_) fun _ => Triple.ret fun m' _ h => ⟨count, rest, h⟩
          rintro m₂ ⟨ctl, procs, -, gone⟩
          refine ⟨head, ?_, procs.thread, procs.threadCount, procs.procs, gone⟩
          change { m₂.toCtl with cr3 := m₀.cr3, tlb := fun _ => none } = _
          rw [ctl]

end OsKernel.Syscall
