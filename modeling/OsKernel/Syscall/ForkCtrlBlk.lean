/-
`fork_ctrl_blk` as a whole: the lists and blocks around the copy of the pages.

`Stage` says how far it has come: the blocks it has taken, in the order in which a
later one lies before an earlier one, and the PCB at the back of `child_pcb_list`, if
it is there. Every step of the call moves between two stages, and every unwind sequence
leads back to the empty one. `fork_mirrors` is what a successful call has made,
`fork_failed` what is left of one that fails.
-/

import OsKernel.Syscall.Fork

namespace OsKernel.Syscall

open OsKernel.Vm OsKernel.Memory Prog Sys

/-- What `fork_ctrl_blk` of process `p` holds: blocks, and the PCB it has pushed. The
lists, registers and directories it found are those of `c₀`. -/
structure Stage (s₀ : Kernel) (c₀ : Ctl) (p : Nat) (blocks : List Nat)
    (pushed : List (Node ChildPcb)) (R : Mem → Prop) (m : Machine) : Prop where
  ctl : m.toCtl = { c₀ with
    tlb := m.tlb
    threadCount := m.threadCount
    nextBlock := m.nextBlock
    heap := blocks ++ c₀.heap
    childPcbList := Function.update c₀.childPcbList p (c₀.childPcbList p ++ pushed) }
  nodup : blocks.Nodup
  below : ∀ b ∈ blocks, b < m.nextBlock
  mem : OnMem s₀ R m.kernel

section
variable {exact : Prop} {t p : Nat} {s₀ : Kernel} {c₀ : Ctl} {blocks : List Nat}
  {pushed : List (Node ChildPcb)} {R : Mem → Prop}

theorem Stage.start (m : Machine) (p : Nat) (holds : R m.kernel.mem) :
    Stage m.kernel m.toCtl p [] [] R m :=
  ⟨by simp, .nil, by simp, .refl _, holds⟩

theorem Stage.children {m : Machine} (h : Stage s₀ c₀ p blocks pushed R m) :
    m.childPcbList p = c₀.childPcbList p ++ pushed := by
  rw [h.ctl]
  simp

theorem Stage.sameCtl {m m' : Machine} {R' : Mem → Prop} (h : Stage s₀ c₀ p blocks pushed R m)
    (same : SameCtl m m') (mem : OnMem s₀ R' m'.kernel) : Stage s₀ c₀ p blocks pushed R' m' := by
  refine ⟨?_, h.nodup, ?_, mem⟩
  · rw [same, h.ctl]
  · have : m'.nextBlock = m.nextBlock := by rw [same]
    rw [this]
    exact h.below

/-- An update of the control part moves to another stage. -/
theorem triple_move {f : Ctl → Ctl} (blocks' : List Nat) (pushed' : List (Node ChildPcb))
    (does : ∀ m : Machine, Stage s₀ c₀ p blocks pushed R m →
      f m.toCtl = { m.toCtl with
        threadCount := (f m.toCtl).threadCount
        heap := blocks' ++ c₀.heap
        childPcbList := Function.update c₀.childPcbList p (c₀.childPcbList p ++ pushed') })
    (nodup : blocks.Nodup → blocks'.Nodup) (sub : ∀ b ∈ blocks', b ∈ blocks) :
    (call t (stays t) exact).Triple () (Stage s₀ c₀ p blocks pushed R) (ctl f)
      fun _ => Stage s₀ c₀ p blocks' pushed' R := by
  refine Triple.atOnce fun m holds _ h => ?_
  have eq := does m h
  refine ⟨⟨?_, holds.2⟩, fun _ => ⟨?_, nodup h.nodup, fun b hb => ?_, h.mem⟩⟩
  · change (f m.toCtl).running = t
    rw [eq]
    exact holds.1
  · change f m.toCtl = { c₀ with
      tlb := (f m.toCtl).tlb
      threadCount := (f m.toCtl).threadCount
      nextBlock := (f m.toCtl).nextBlock
      heap := blocks' ++ c₀.heap
      childPcbList := Function.update c₀.childPcbList p (c₀.childPcbList p ++ pushed') }
    rw [eq, h.ctl]
  · change b < (f m.toCtl).nextBlock
    rw [eq]
    exact h.below b (sub b hb)

/-- An assertion about memory that an allocation of the kernel heap keeps. -/
def HeapStable (R : Mem → Prop) : Prop := ∀ m, R m → R (m.withVm m.vm.malloc.2)

/-- `malloc` of a block. -/
theorem triple_block (stable : HeapStable R) (size : Nat) :
    (call t (stays t) exact).Triple () (Stage s₀ c₀ p blocks pushed R) (malloc size) fun r m =>
      match r with
      | none => Stage s₀ c₀ p blocks pushed R m
      | some block => Stage s₀ c₀ p (block :: blocks) pushed R m := by
  have taken : (call t (stays t) exact).Triple () (Stage s₀ c₀ p blocks pushed R)
      (mem (.malloc size)) fun _ => Stage s₀ c₀ p blocks pushed R := by
    refine Triple.atOnce fun m holds _ h => ?_
    have procs := sameProcs_exec (a := .malloc size) trivial m.running m.kernel
    refine ⟨⟨holds.1, fun _ => ?_⟩, fun _ => h.sameCtl rfl ⟨h.mem.1.trans procs, ?_⟩⟩
    · change Kernel.alive t (Kernel.exec m.running (.malloc size) m.kernel).1 = true
      rw [Kernel.alive, procs.thread]
      exact holds.2 trivial
    · simp only [Machine.exec, Machine.setKernel, Kernel.exec]
      split
      · exact h.mem.2
      · exact stable _ h.mem.2
  refine Triple.bind taken fun ok => ?_
  cases ok with
  | false => exact Triple.ret fun _ _ h => h
  | true =>
      refine Triple.bind triple_look fun m₁ => ?_
      refine Triple.bind (Q := fun _ => Stage s₀ c₀ p (m₁.nextBlock :: blocks) pushed R)
        (triple_ctl ?_ ?_) fun _ => Triple.ret fun _ _ h => h
      · exact fun _ => rfl
      · rintro m ⟨rfl, h⟩
        refine ⟨?_, List.nodup_cons.mpr ⟨fun mem => ?_, h.nodup⟩, fun b hb => ?_, h.mem⟩
        · simp only [Machine.setCtl]
          rw [h.ctl]
          rfl
        · exact Nat.lt_irrefl _ (h.below _ mem)
        · rcases List.mem_cons.mp hb with rfl | hb
          · exact Nat.lt_succ_self _
          · exact Nat.lt_succ_of_lt (h.below b hb)

/-- `free` of one of the blocks. -/
theorem triple_free (before after : List Nat) (block : Nat) (eq : blocks = before ++ block :: after) :
    (call t (stays t) exact).Triple () (Stage s₀ c₀ p blocks pushed R) (free block)
      fun _ => Stage s₀ c₀ p (before ++ after) pushed R := by
  subst eq
  refine triple_move (before ++ after) pushed (fun m h => ?_) (fun nodup => ?_) fun b hb => ?_
  · have absent : block ∉ before := fun mem =>
      (List.disjoint_of_nodup_append h.nodup) mem List.mem_cons_self
    have erased : (before ++ block :: after ++ c₀.heap).erase block = before ++ after ++ c₀.heap := by
      rw [List.append_assoc, List.erase_append_right _ absent, List.cons_append,
        List.erase_cons_head, List.append_assoc]
    rw [h.ctl]
    dsimp only
    rw [erased]
  · exact nodup.sublist ((List.Sublist.refl before).append (List.sublist_cons_self block after))
  · simp only [List.mem_append, List.mem_cons] at hb ⊢
    tauto

end

/-! ### Lists of the child -/

section
variable {exact : Prop} {t p : Nat} {s₀ : Kernel} {c₀ : Ctl} {blocks : List Nat}
  {R : Mem → Prop} {node : Node ChildPcb}

/-- A change of `*child_pcb_ptr`, with or without a new `tid`. -/
theorem triple_setChild {f : ChildPcb → ChildPcb} {g : Ctl → Ctl}
    (count : ∀ c, g c = { c with threadCount := (g c).threadCount }) :
    (call t (stays t) exact).Triple () (Stage s₀ c₀ p blocks [node] R)
      (ctl fun c => (g c).setChild p f)
      fun _ => Stage s₀ c₀ p blocks [{ node with data := f node.data }] R := by
  refine triple_move _ _ (fun m h => ?_) (fun nodup => nodup) fun _ hb => hb
  have changed : (c₀.childPcbList p ++ [node]).modifyLast
      (fun node => { node with data := f node.data }) =
        c₀.childPcbList p ++ [{ node with data := f node.data }] := List.modifyLast_concat ..
  rw [count, h.ctl]
  simp only [Ctl.setChild, Ctl.setChildren, Function.update_self, Function.update_idem, changed]

/-- `PUSH_BACK` on `child_pcb_list`. -/
theorem triple_pushChild (stable : HeapStable R) (d : Nat) :
    (call t (stays t) exact).Triple () (Stage s₀ c₀ p blocks [] R) (pushChild p d) fun ok m =>
      bif ok then ∃ b, Stage s₀ c₀ p (b :: blocks) [⟨b, { pageDirectory := d }⟩] R m
        else Stage s₀ c₀ p blocks [] R m := by
  refine Triple.bind (triple_block stable _) fun r => ?_
  cases r with
  | none => exact Triple.ret fun _ _ h => h
  | some b =>
      refine Triple.bind (triple_move (b :: blocks) [⟨b, { pageDirectory := d }⟩]
        (fun m h => ?_) (fun nodup => nodup) fun _ hb => hb) fun _ => Triple.ret fun _ _ h => ⟨b, h⟩
      rw [h.ctl]
      simp only [Ctl.setChildren, Function.update_self, Function.update_idem, List.append_nil]

/-- `POP_BACK` on `child_pcb_list`. -/
theorem triple_popChild (before after : List Nat) (eq : blocks = before ++ node.addr :: after) :
    (call t (stays t) exact).Triple () (Stage s₀ c₀ p blocks [node] R) (popChild p)
      fun _ => Stage s₀ c₀ p (before ++ after) [] R := by
  refine Triple.bind triple_look fun m => ?_
  rintro m' holds live ⟨rfl, h⟩
  have last : (m.childPcbList p).getLast? = some node := by rw [h.children, List.getLast?_concat]
  rw [last]
  refine Triple.bind (triple_move blocks [] (fun m h => ?_)
    (fun nodup => nodup) fun _ hb => hb) (fun _ => triple_free before after node.addr eq) m holds live h
  rw [h.ctl]
  simp only [Ctl.setChildren, Function.update_self, Function.update_idem, List.dropLast_concat,
    List.append_nil]

/-- `PUSH_BACK` on `page_allocation_list` of the child. -/
theorem triple_pushRecord (stable : HeapStable R) (record : Nat × Int) :
    (call t (stays t) exact).Triple () (Stage s₀ c₀ p blocks [node] R) (pushRecord p record)
      fun ok m => bif ok then ∃ b, Stage s₀ c₀ p (b :: blocks) [{ node with data :=
          { node.data with pageAllocationList := node.data.pageAllocationList ++ [⟨b, record⟩] } }] R m
        else Stage s₀ c₀ p blocks [node] R m := by
  refine Triple.bind (triple_block stable _) fun r => ?_
  cases r with
  | none => exact Triple.ret fun _ _ h => h
  | some b =>
      exact Triple.bind (triple_setChild (g := id) fun _ => rfl) fun _ =>
        Triple.ret fun _ _ h => ⟨b, h⟩

/-- The node with other records. -/
def Node.records (node : Node ChildPcb) (nodes : List (Node (Nat × Int))) : Node ChildPcb :=
  { node with data := { node.data with pageAllocationList := nodes } }

/-- The records of the child, pushed one after another. -/
theorem triple_pushRecords (node : Node ChildPcb) (stable : HeapStable R)
    (allocs : List (Nat × Int)) (nodes : List (Node (Nat × Int))) :
    (call t (stays t) exact).Triple ()
      (Stage s₀ c₀ p ((nodes.map Node.addr).reverse ++ blocks) [node.records nodes] R)
      (forAll (pushRecord p) allocs) fun ok m => ∃ nodes',
        (ok = true → nodes'.map Node.data = nodes.map Node.data ++ allocs) ∧
        Stage s₀ c₀ p ((nodes'.map Node.addr).reverse ++ blocks) [node.records nodes'] R m := by
  induction allocs generalizing nodes with
  | nil => exact Triple.ret fun _ _ h => ⟨nodes, fun _ => by simp, h⟩
  | cons record allocs ih =>
      refine Triple.bind (triple_pushRecord stable record) fun ok => ?_
      cases ok with
      | false => exact Triple.ret fun _ _ h => ⟨nodes, by simp, h⟩
      | true =>
          rintro m holds live ⟨b, h⟩
          refine (ih (nodes ++ [⟨b, record⟩]) m holds live ?_).mono ?_
          · simpa [Node.records] using h
          · rintro ok m' ⟨nodes', data, h'⟩
            exact ⟨nodes', fun all => by simpa using data all, h'⟩

theorem triple_popRecords (node : Node ChildPcb) (nodes : List (Node (Nat × Int))) :
    (call t (stays t) exact).Triple ()
      (Stage s₀ c₀ p ((nodes.map Node.addr).reverse ++ blocks) [node.records nodes] R)
      (popRecords p nodes) fun _ => Stage s₀ c₀ p blocks [node.records []] R := by
  induction nodes with
  | nil => exact Triple.ret fun _ _ h => h
  | cons record nodes ih =>
      refine Triple.bind (triple_setChild (g := id) fun _ => rfl) fun _ => ?_
      exact Triple.bind (triple_free (nodes.map Node.addr).reverse blocks record.addr (by simp))
        fun _ => ih

/-- The records of the child, freed one after another. -/
theorem triple_dropRecords (node : Node ChildPcb) (nodes : List (Node (Nat × Int))) :
    (call t (stays t) exact).Triple ()
      (Stage s₀ c₀ p ((nodes.map Node.addr).reverse ++ blocks) [node.records nodes] R)
      (dropRecords p) fun _ => Stage s₀ c₀ p blocks [node.records []] R := by
  refine Triple.bind triple_look fun m => ?_
  rintro m' holds live ⟨rfl, h⟩
  have last : (m.childPcbList p).getLast? = some (node.records nodes) := by
    rw [h.children, List.getLast?_concat]
  rw [last]
  exact triple_popRecords node nodes m holds live h

end

section
variable {exact : Prop} {t p : Nat} {s₀ : Kernel} {c₀ : Ctl} {blocks : List Nat}
  {R : Mem → Prop} {node : Node ChildPcb}

/-- The node with other threads. -/
def Node.tcbs (node : Node ChildPcb) (nodes : List (Node Nat)) : Node ChildPcb :=
  { node with data := { node.data with tcbList := nodes } }

/-- `PUSH_FRONT` on `tcb_list` of the child. -/
theorem triple_pushTcb (stable : HeapStable R) (tid : Nat) :
    (call t (stays t) exact).Triple () (Stage s₀ c₀ p blocks [node] R) (pushTcb p tid)
      fun ok m => bif ok then
          ∃ b, Stage s₀ c₀ p (b :: blocks) [node.tcbs (⟨b, tid⟩ :: node.data.tcbList)] R m
        else Stage s₀ c₀ p blocks [node] R m := by
  refine Triple.bind (triple_block stable _) fun r => ?_
  cases r with
  | none => exact Triple.ret fun _ _ h => h
  | some b =>
      exact Triple.bind (triple_setChild (g := id) fun _ => rfl) fun _ =>
        Triple.ret fun _ _ h => ⟨b, h⟩

/-- The new `tid`. -/
theorem triple_newTid (node : Node ChildPcb) (b tid : Nat) :
    (call t (stays t) exact).Triple () (Stage s₀ c₀ p blocks [node.tcbs [⟨b, tid⟩]] R) (newTid p)
      fun tid' => Stage s₀ c₀ p blocks [node.tcbs [⟨b, tid'⟩]] R := by
  refine Triple.bind triple_look fun m => ?_
  refine Triple.conseq (Triple.bind (triple_setChild
    (g := fun c => { c with threadCount := c.threadCount + 1 }) fun _ => rfl) fun _ =>
      Triple.ret fun _ _ h => h) (fun _ _ h => h.2) fun _ _ h => h

/-- `POP_BACK` on `tcb_list` of the child. -/
theorem triple_popTcb (b tid : Nat) :
    (call t (stays t) exact).Triple () (Stage s₀ c₀ p (b :: blocks) [node.tcbs [⟨b, tid⟩]] R)
      (popTcb p) fun _ => Stage s₀ c₀ p blocks [node.tcbs []] R := by
  refine Triple.bind triple_look fun m => ?_
  rintro m' holds live ⟨rfl, h⟩
  have last : ((m.childPcbList p).getLast?.bind fun node => node.data.tcbList.getLast?) =
      some ⟨b, tid⟩ := by
    rw [h.children, List.getLast?_concat]
    rfl
  rw [last]
  exact Triple.bind (triple_setChild (g := id) fun _ => rfl)
    (fun _ => triple_free [] blocks b rfl) m holds live h

end

/-! ### The copies of the PCB and of the TCB -/

section
variable {exact : Prop} {t p parent child : Nat} {s₀ : Kernel} {c₀ : Ctl} {m₀ : Mem}

theorem heapStable_copied {page : Nat} : HeapStable (Copied parent child page m₀) := fun _ h =>
  h.same ⟨within_malloc h.within.wf child, fun _ => rfl, rfl⟩

theorem Stage.weaken {blocks : List Nat} {pushed : List (Node ChildPcb)} {R R' : Mem → Prop}
    {m : Machine} (h : Stage s₀ c₀ p blocks pushed R m) (imp : ∀ m, R m → R' m) :
    Stage s₀ c₀ p blocks pushed R' m :=
  ⟨h.ctl, h.nodup, h.below, h.mem.1, imp _ h.mem.2⟩

/-- All pages of the child mirror those of the parent. -/
abbrev Whole (parent child : Nat) (m₀ : Mem) : Mem → Prop :=
  Copied parent child (virtualAddrEnd / pageSize) m₀

/-- The loop over the pages, inside the call. -/
theorem triple_copyPages (fresh : Fresh parent child m₀) (dir : (m₀.vm.abs.space parent).isSome)
    (running : c₀.running = t) (cr3 : c₀.cr3 = parent) (home : c₀.pageDirectory = c₀.cr3)
    {blocks : List Nat} {pushed : List (Node ChildPcb)} :
    (call t (stays t) exact).Triple ()
      (Stage s₀ c₀ p blocks pushed (Copied parent child kernelPageCount m₀))
      (lift (forkPages parent child kernelPageCount)) fun ok m =>
        bif ok then Stage s₀ c₀ p blocks pushed (Whole parent child m₀) m
          else Stage s₀ c₀ p blocks pushed (Filling child m₀) m := by
  intro m holds live h
  have eq : m.running = t := by
    rw [h.ctl]
    exact running
  have cr3' : m.cr3 = parent := by
    rw [h.ctl]
    exact cr3
  have home' : m.pageDirectory = m.cr3 := by
    rw [h.ctl]
    exact home
  have via := via_forkPages (c := m.toCtl) home' child kernelPageCount
  rw [cr3'] at via
  have triple : (solo t (stays t) exact).Triple () (OnMem s₀ _) _ _ :=
    triple_forkPages fresh dir kernelPageCount le_rfl (by decide)
  refine (triple_lift eq via triple m holds live ⟨.refl m, h.mem⟩).mono ?_
  rintro ok m' ⟨same, post⟩
  cases ok with
  | true => exact h.sameCtl same post
  | false => exact h.sameCtl same post

/-- The PCB of the child with the records of the parent. -/
def PcbMade (s₀ : Kernel) (c₀ : Ctl) (p child : Nat) (allocs : List (Nat × Int)) (R : Mem → Prop)
    (m : Machine) : Prop :=
  ∃ b nodes, nodes.map Node.data = allocs ∧ Stage s₀ c₀ p ((nodes.map Node.addr).reverse ++ [b])
    [⟨b, { pageDirectory := child, pageAllocationList := nodes }⟩] R m

theorem triple_copyPcb (fresh : Fresh parent child m₀) (dir : (m₀.vm.abs.space parent).isSome)
    (running : c₀.running = t) (cr3 : c₀.cr3 = parent) (home : c₀.pageDirectory = c₀.cr3)
    (allocs : List (Nat × Int)) :
    (call t (stays t) exact).Triple ()
      (Stage s₀ c₀ p [] [] (Copied parent child kernelPageCount m₀)) (copyPcb p parent child allocs)
      fun ok m => bif ok then PcbMade s₀ c₀ p child allocs (Whole parent child m₀) m
        else Stage s₀ c₀ p [] [] (Filling child m₀) m := by
  have filling : ∀ {page blocks pushed m},
      Stage s₀ c₀ p blocks pushed (Copied parent child page m₀) m →
      Stage s₀ c₀ p blocks pushed (Filling child m₀) m :=
    fun h => h.weaken fun _ h => h.toFilling
  refine Triple.bind (triple_block heapStable_copied _) fun r => ?_
  cases r with
  | none => exact Triple.ret fun _ _ h => filling h
  | some buf =>
  refine Triple.bind (triple_pushChild heapStable_copied child) fun ok => ?_
  cases ok with
  | false =>
      refine Triple.bind (triple_free [] [] buf rfl) fun _ => Triple.ret fun _ _ h => filling h
  | true =>
  rintro m holds live ⟨b, h⟩
  refine Triple.bind (triple_copyPages fresh dir running cr3 home) (fun ok => ?_) m holds live h
  cases ok with
  | false =>
      refine Triple.bind (triple_popChild [] [buf] rfl) fun _ => ?_
      exact Triple.bind (triple_free [] [] buf rfl) fun _ => Triple.ret fun _ _ h => h
  | true =>
  refine Triple.bind (triple_free [b] [] buf rfl) fun _ => ?_
  have records : (call t (stays t) exact).Triple ()
      (Stage s₀ c₀ p ([b] ++ []) [⟨b, { pageDirectory := child }⟩] (Whole parent child m₀))
      (forAll (pushRecord p) allocs) _ :=
    triple_pushRecords ⟨b, { pageDirectory := child }⟩ heapStable_copied allocs []
  refine Triple.bind records fun ok => ?_
  cases ok with
  | true =>
      refine Triple.ret fun m _ h => ?_
      obtain ⟨nodes, data, h⟩ := h
      exact ⟨b, nodes, data rfl, h⟩
  | false =>
      rintro m holds live ⟨nodes, -, h⟩
      refine Triple.bind (triple_dropRecords ⟨b, { pageDirectory := child }⟩ nodes) (fun _ => ?_)
        m holds live h
      exact Triple.bind (triple_popChild [] [] rfl) fun _ => Triple.ret fun _ _ h => filling h

end

/-! ### The call -/

/-- What is left of a `fork_ctrl_blk` that has failed: the lists, the registers, the
heap, the directories and the pool are as before. -/
structure Restored (exact : Prop) (m m' : Machine) : Prop where
  ctl : m'.toCtl = { m.toCtl with
    tlb := m'.tlb
    threadCount := m'.threadCount
    nextBlock := m'.nextBlock }
  procs : SameProcs m.kernel m'.kernel
  wf : m'.kernel.mem.vm.abs.Wf
  dirs : m'.kernel.mem.vm.dirs = m.kernel.mem.vm.dirs
  pool : exact → m'.kernel.mem.vm.allocList = m.kernel.mem.vm.allocList
  contents : KeepsFrames m.kernel.mem m'.kernel.mem
  bytes : ∀ e w, UserAddr w → m'.kernel.mem.byteAt e w = m.kernel.mem.byteAt e w

/-- What a successful `fork_ctrl_blk` of process `p` has made: a directory that mirrors
the one in `%cr3`, a PCB with the records of the parent, and a thread in the READY
list. -/
structure Forked (p : Nat) (pr : Proc) (child tid : Nat) (m m' : Machine) : Prop where
  absent : m.kernel.mem.vm.dirs child = none
  pages : ∀ q, UserPage q → Mirrors m.kernel.mem m'.kernel.mem m.cr3 child q
  own : ∀ q f, m'.kernel.mem.vm.abs.Maps child q f → f ≠ zeroFrame →
    ∀ e q', ¬ m.kernel.mem.vm.abs.Maps e q' f
  pcb : ∃ block nodes tcb, nodes.map Node.data = pr.allocs ∧
    m'.childPcbList = Function.update m.childPcbList p (m.childPcbList p ++
      [⟨block, { pageDirectory := child, pageAllocationList := nodes, tcbList := [⟨tcb, tid⟩] }⟩])
  ready : ∃ block, m'.threadLists = Function.update m.threadLists readyState
    (m.threadLists readyState ++ [⟨block, tid⟩])
  thread : m'.kernel.thread =
    Function.update m.kernel.thread m.kernel.threadCount (some m.kernel.threadCount)
  procs : m'.kernel.procs = Function.update m.kernel.procs m.kernel.threadCount
    (some { dir := child, allocs := pr.allocs })
  wf : m'.kernel.mem.vm.abs.Wf
  dirs : ∀ e, e ≠ child → m'.kernel.mem.vm.dirs e = m.kernel.mem.vm.dirs e
  contents : KeepsFrames m.kernel.mem m'.kernel.mem
  bytes : ∀ e w, e ≠ child → UserAddr w → m'.kernel.mem.byteAt e w = m.kernel.mem.byteAt e w
  cr3 : m'.cr3 = m.cr3
  pageDirectory : m'.pageDirectory = m.pageDirectory
  running : m'.running = m.running

section
variable {exact : Prop} {p child : Nat} {pr : Proc} {m : Machine} {m₁ : Mem}

/-- The end of every unwind sequence. -/
theorem triple_giveUp (wf : m.kernel.mem.vm.abs.Wf)
    (made : Constructed child m.kernel.mem.vm m₁.vm) (phys : m₁.phys = m.kernel.mem.phys) :
    (call m.running (stays m.running) exact).Triple ()
      (Stage m.kernel m.toCtl p [] [] (Filling child m₁)) (giveUp child) fun r m' =>
        r = none ∧ Restored exact m m' := by
  refine Triple.bind (Q := fun _ m' => Restored exact m m') (Triple.atOnce ?_) fun _ =>
    Triple.ret fun _ _ h => ⟨rfl, h⟩
  intro m₂ holds admitted h
  have fill := h.mem.2
  have dirs : (destructPageDir m₂.kernel.mem.vm child).dirs = m.kernel.mem.vm.dirs :=
    made.destruct fill.within.toApart
  have contents : KeepsFrames m.kernel.mem
      (m₂.kernel.mem.withVm (destructPageDir m₂.kernel.mem.vm child)) := by
    intro n off hoff _ spare
    change m₂.kernel.mem.phys _ = _
    rw [fill.spare n off hoff (made.pool ▸ spare), phys]
  refine ⟨⟨holds.1, holds.2⟩, fun _ => ⟨?_, ?_, ?_, dirs, ?_, contents, fun e w user => ?_⟩⟩
  · change m₂.toCtl = _
    rw [h.ctl]
    simp [Machine.exec, Machine.setKernel]
  · exact h.mem.1.trans ⟨rfl, rfl, rfl⟩
  · exact fill.within.wf.destruct child
  · exact fun e => made.pool_destruct fill.within (admitted e)
  · exact contents.bytes wf (congrFun dirs e) user

/-- The pages of the parent before the directory of the child was made. -/
theorem Mirrors.constructed {m₂ : Mem} {parent q : Nat}
    (made : Constructed child m.kernel.mem.vm m₁.vm) (phys : m₁.phys = m.kernel.mem.phys)
    (ne : parent ≠ child) (h : Mirrors m₁ m₂ parent child q) :
    Mirrors m.kernel.mem m₂ parent child q := by
  have state : m.kernel.mem.state parent q = m₁.state parent q := by
    simp only [Mem.state, VmState.abs, made.others ne]
  cases h with
  | unmapped old new => exact .unmapped (state.trans old) new
  | zero old new oldZero newZero => exact .zero (state.trans old) new oldZero newZero
  | own old new oldOwn newOwn us rw pool bytes =>
      refine .own (state.trans old) new oldOwn newOwn us rw (made.pool ▸ pool) fun off hoff => ?_
      rw [bytes off hoff, phys]

/-- `newProcess`, the last step. -/
theorem triple_newProcess (wf : m.kernel.mem.vm.abs.Wf) (made : Constructed child m.kernel.mem.vm m₁.vm)
    (phys : m₁.phys = m.kernel.mem.phys) (ne : m.cr3 ≠ child)
    (thread : m.kernel.thread m.running = some p) {b tcb ready tid : Nat} {blocks : List Nat}
    {nodes : List (Node (Nat × Int))} (data : nodes.map Node.data = pr.allocs) :
    (call m.running (stays m.running) exact).Triple ()
      (Stage m.kernel m.toCtl p blocks [⟨b, child, nodes, [⟨tcb, tid⟩]⟩] (Whole m.cr3 child m₁))
      (do
        ctl fun c => c.pushReady ⟨ready, tid⟩
        mem (.newProcess child pr.allocs)
        pure (some tid))
      fun r m' => r = some tid ∧ Forked p pr child tid m m' := by
  intro m₂ holds live h
  refine Triple.bind (Q := fun _ m' => m' = m₂.setCtl (m₂.toCtl.pushReady ⟨ready, tid⟩))
    (triple_ctl ?_ ?_) (fun _ => ?_) m₂ holds live rfl
  · exact fun _ => rfl
  · rintro _ rfl
    rfl
  refine Triple.bind (Q := fun _ => Forked p pr child tid m) (Triple.atOnce ?_) fun _ =>
    Triple.ret fun _ _ h => ⟨rfl, h⟩
  rintro _ holds - rfl
  have copied := h.mem.2
  have procs := h.mem.1
  have thread₂ : m₂.kernel.thread m₂.running = some p := by
    rw [show m₂.running = m.running from holds.1, procs.thread, thread]
  generalize hm₃ : (Machine.exec (.mem (.newProcess child pr.allocs))
    (m₂.setCtl (m₂.toCtl.pushReady ⟨ready, tid⟩))).1 = m₃
  have ctl₃ : m₃.toCtl = m₂.toCtl.pushReady ⟨ready, tid⟩ := by
    rw [← hm₃]
    rfl
  have kernel : m₃.kernel =
      (Kernel.exec m₂.running (.newProcess child pr.allocs) m₂.kernel).1 := by
    rw [← hm₃]
    rfl
  simp only [Kernel.exec, thread₂] at kernel
  have dirs : ∀ e, e ≠ child → m₃.kernel.mem.vm.dirs e = m.kernel.mem.vm.dirs e := by
    intro e ne
    rw [kernel]
    exact (copied.within.dirs e ne).trans (made.others ne)
  have contents : KeepsFrames m.kernel.mem m₃.kernel.mem := by
    intro n off hoff _ spare
    rw [kernel, copied.spare n off hoff (made.pool ▸ spare), phys]
  refine ⟨⟨?_, fun _ => ?_⟩, fun _ => ⟨made.absent, fun q user => ?_, ?_, ?_, ?_, ?_, ?_, ?_, dirs,
    contents, fun e w ne user => contents.bytes wf (dirs e ne) user, ?_, ?_, ?_⟩⟩
  · rw [ctl₃]
    exact holds.1
  · rw [kernel]
    have alive := holds.2 trivial
    simp only [Kernel.alive, Function.update_apply]
    split
    · rfl
    · exact alive
  · rw [kernel]
    exact (copied.done q user user.2).constructed made phys ne
  · intro q f maps nz e q'
    rw [kernel] at maps
    have pool := copied.toFilling.pool made.empty maps nz
    rw [made.pool] at pool
    exact fun maps' => wf.unmapped e q' f maps' nz pool
  · refine ⟨b, nodes, tcb, data, ?_⟩
    rw [ctl₃, Ctl.pushReady, h.ctl]
  · refine ⟨ready, ?_⟩
    rw [ctl₃, Ctl.pushReady, h.ctl]
  · rw [kernel, procs.thread, procs.threadCount]
  · rw [kernel, procs.procs, procs.threadCount]
  · rw [kernel]
    exact copied.within.wf
  · rw [ctl₃, Ctl.pushReady, h.ctl]
  · rw [ctl₃, Ctl.pushReady, h.ctl]
  · rw [ctl₃]
    exact holds.1

/-- How `fork_ctrl_blk` ends. -/
def ForkEnds (exact : Prop) (m : Machine) (r : Option Nat) (m' : Machine) : Prop :=
  match r with
  | some tid => ∃ p pr child, m.kernel.thread m.running = some p ∧
      m.kernel.procs p = some pr ∧ Forked p pr child tid m m'
  | none => Restored exact m m'

theorem triple_copyTcb (wf : m.kernel.mem.vm.abs.Wf)
    (made : Constructed child m.kernel.mem.vm m₁.vm) (phys : m₁.phys = m.kernel.mem.phys)
    (ne : m.cr3 ≠ child) (thread : m.kernel.thread m.running = some p)
    (proc : m.kernel.procs p = some pr) :
    (call m.running (stays m.running) exact).Triple ()
      (PcbMade m.kernel m.toCtl p child pr.allocs (Whole m.cr3 child m₁))
      (copyTcb p child pr.allocs) (ForkEnds exact m) := by
  rintro m₂ holds live ⟨b, nodes, data, h⟩
  -- the PCB is taken back, and the directory with it
  have undo : (call m.running (stays m.running) exact).Triple ()
      (Stage m.kernel m.toCtl p ((nodes.map Node.addr).reverse ++ [b])
        [⟨b, { pageDirectory := child, pageAllocationList := nodes }⟩] (Whole m.cr3 child m₁))
      (do dropRecords p; popChild p; giveUp child) (ForkEnds exact m) := by
    refine Triple.bind (triple_dropRecords ⟨b, { pageDirectory := child }⟩ nodes) fun _ => ?_
    refine Triple.bind (triple_popChild [] [] rfl) fun _ => ?_
    refine Triple.conseq (triple_giveUp wf made phys)
      (fun _ _ h => h.weaken fun _ h => h.toFilling) ?_
    rintro _ m' ⟨rfl, restored⟩
    exact restored
  refine Triple.bind triple_look (fun m₃ => ?_) m₂ holds live h
  refine Triple.bind (Triple.conseq (triple_pushTcb heapStable_copied m₃.running)
    (fun _ _ h => h.2) fun _ _ h => h) fun ok => ?_
  cases ok with
  | false => exact undo
  | true =>
      rintro m₄ holds live ⟨tcb, h⟩
      refine Triple.bind (triple_newTid ⟨b, { pageDirectory := child, pageAllocationList := nodes }⟩
        tcb m₃.running) (fun tid => ?_) m₄ holds live h
      refine Triple.bind (triple_block heapStable_copied _) fun r => ?_
      cases r with
      | none => exact Triple.bind (triple_popTcb tcb tid) fun _ => undo
      | some ready =>
          refine Triple.conseq (triple_newProcess wf made phys ne thread data) (fun _ _ h => h) ?_
          rintro _ m' ⟨rfl, forked⟩
          exact ⟨p, pr, child, thread, proc, forked⟩

/-- The start of the copy. -/
theorem Copied.start {parent : Nat} (made : Constructed child m.kernel.mem.vm m₁.vm) :
    Copied parent child kernelPageCount m₁ m₁ := by
  refine ⟨⟨.refl made.wf child, fun _ _ _ _ => rfl⟩, fun q user lt => ?_, fun q user _ => ?_⟩
  · exact absurd user.1 (Nat.not_le.mpr lt)
  · rw [state_of_space made.space, stateOf_freshDir, if_neg (Nat.not_lt.mpr user.1)]

theorem Restored.refl (wf : m.kernel.mem.vm.abs.Wf) : Restored exact m m :=
  ⟨rfl, .refl _, wf, rfl, fun _ => rfl, fun _ _ _ _ _ => rfl, fun _ _ _ => rfl⟩

/-- `fork_ctrl_blk` -/
theorem triple_forkCtrlBlk (wf : m.kernel.mem.vm.abs.Wf) (home : m.pageDirectory = m.cr3)
    (dir : (m.kernel.mem.vm.dirs m.cr3).isSome) :
    (call m.running (stays m.running) exact).Triple () (Eq m) forkCtrlBlk (ForkEnds exact m) := by
  refine Triple.bind triple_look fun m₀ => ?_
  refine Triple.bind (Q := fun pr m' => m₀ = m ∧ m = m' ∧ pr = m.kernel.proc m.running)
    (Triple.atOnce ?_) fun current => ?_
  · rintro _ holds - ⟨rfl, rfl⟩
    exact ⟨holds, fun _ => ⟨rfl, rfl, rfl⟩⟩
  rintro m' holds live ⟨rfl, rfl, proc⟩
  have idle : ForkEnds exact m₀ none m₀ := Restored.refl wf
  cases thread : m₀.kernel.thread m₀.running with
  | none => exact idle
  | some p =>
  cases current with
  | none => exact idle
  | some pr =>
  rw [Kernel.proc, thread, Option.bind_some] at proc
  refine Triple.bind (Q := fun r m' => r.elim (ForkEnds exact m₀ none m') fun child =>
      ∃ m₁, Constructed child m₀.kernel.mem.vm m₁.vm ∧ m₁.phys = m₀.kernel.mem.phys ∧
        Stage m₀.kernel m₀.toCtl p [] [] (Eq m₁) m')
    (Triple.atOnce ?_) (fun r => ?_) m₀ holds live rfl
  · rintro m' ⟨running, alive⟩ - rfl
    obtain ⟨kernel, r, ran, procs, phys, cases⟩ := exec_constructPageDir wf
    rw [ran]
    refine ⟨⟨running, fun h => ?_⟩, fun _ => ?_⟩
    · change Kernel.alive _ kernel = true
      rw [Kernel.alive, procs.thread]
      exact alive h
    rcases cases with ⟨rfl, dirs, abs⟩ | ⟨rfl, made⟩
    · refine ⟨rfl, procs, abs ▸ wf, dirs, fun _ => congrArg Spaces.free abs, fun n off _ _ _ => ?_,
        fun e w user => ?_⟩
      · exact congrFun phys _
      · change kernel.mem.byteAt e w = m₀.kernel.mem.byteAt e w
        rw [Mem.byteAt, Mem.byteAt, abs, phys]
    · exact ⟨kernel.mem, made, phys,
        (Stage.start m₀ p (R := fun _ => True) trivial).sameCtl rfl ⟨procs, rfl⟩⟩
  cases r with
  | none => exact Triple.ret fun _ _ h => h
  | some child =>
      rintro m₂ holds live ⟨m₁, made, phys, stage⟩
      have ne : m₀.cr3 ≠ child := by
        rintro same
        rw [same, made.absent] at dir
        cases dir
      have fresh : Fresh m₀.cr3 child m₁ := ⟨made.wf, made.empty, ne⟩
      have dir₁ : (m₁.vm.abs.space m₀.cr3).isSome := by
        simp only [VmState.abs, made.others ne, Option.isSome_map]
        exact dir
      refine Triple.bind (triple_copyPcb fresh dir₁ rfl rfl home pr.allocs) (fun ok => ?_) m₂ holds
        live (stage.weaken fun _ eq => eq ▸ .start made)
      cases ok with
      | true => exact triple_copyTcb wf made phys ne thread proc.symm
      | false =>
          refine Triple.conseq (triple_giveUp wf made phys) (fun _ _ h => h) ?_
          rintro _ m' ⟨rfl, restored⟩
          exact restored

end

/-! ### A child, or nothing -/

section
variable {m : Machine}

/-- `fork_ctrl_blk` always returns. The child of a successful call has the pages of its
parent, on frames that no page was mapped to before, and its records; the parent keeps
its directory and its memory. -/
theorem fork_mirrors (wf : m.kernel.mem.vm.abs.Wf) (live : m.live = true)
    (home : m.pageDirectory = m.cr3) (dir : (m.kernel.mem.vm.dirs m.cr3).isSome) :
    ∃ m' r, m.eval forkCtrlBlk = (m', some r) ∧ ∀ tid, r = some tid →
      ∃ p pr child, m.kernel.thread m.running = some p ∧ m.kernel.procs p = some pr ∧
        Forked p pr child tid m m' := by
  have triple : (call m.running (stays m.running) False).Triple () (Eq m) _ _ :=
    triple_forkCtrlBlk wf home dir
  obtain ⟨m', r, ran, -, post⟩ := triple.ends lives ⟨rfl, fun _ => live⟩ rfl
    (meets_of_forall (fun _ _ no => no.elim) _ _)
  refine ⟨m', r, ran, ?_⟩
  rintro tid rfl
  exact post

/-- The first process forks. -/
theorem fork_mirrors_init : ∃ m m' p pr child,
    boot 4100 (fun _ => true) (fun _ => 255) emptyCtl = some m ∧
      m.eval forkCtrlBlk = (m', some (some 1)) ∧ Forked p pr child 1 m m' := by
  have ran : (boot 4100 (fun _ => true) (fun _ => 255) emptyCtl).map (fun m =>
      (m.live, (m.kernel.mem.vm.dirs m.cr3).isSome, (m.eval forkCtrlBlk).2)) =
        some (true, true, some (some 1)) := by
    decide +kernel
  obtain ⟨m, started, eq⟩ := Option.map_eq_some_iff.mp ran
  simp only [Prod.mk.injEq] at eq
  obtain ⟨-, -, home, -⟩ := boot_spec started
  obtain ⟨m', r, ran', post⟩ := fork_mirrors (boot_wf (by decide) started) eq.1 home eq.2.1
  have made := eq.2.2
  rw [ran', Option.some.injEq] at made
  subst made
  obtain ⟨p, pr, child, -, -, forked⟩ := post 1 rfl
  exact ⟨m, m', p, pr, child, started, ran', forked⟩

end

end OsKernel.Syscall
