/-
The lists of threads between two steps, without their links.

`Lined k L` says which threads the lists hold, those of `L`, each once and in the list of its
state, and what is kept of the order: the threads of a process stand together in the `READY`
list, and only the head of the `READLINE` list may be a first reader. The rules are one for
each edit: `Lined.alter` and `Lined.ended` for `alter_state`, `Lined.roundRobin`, and
`Lined.enqueue` and `Lined.append` for the new threads of `thread_fork` and `fork`.
-/

import OsKernel.Sched.Alter
import OsKernel.Sched.RoundRobin
import OsKernel.Sched.Splices

namespace OsKernel.Dispatch

open OsKernel.Sched OsKernel.Groups

/-- What `alter_state` makes of a TCB. -/
def altered (tcb : Tcb) (state : ThreadState) (detail : Option BlockingDetail) : Tcb :=
  { tcb with
    state := state
    detail := if state = .waiting then detail.getD tcb.detail else tcb.detail }

structure Lined (k : Threads) (L : Thread → Prop) : Prop where
  nodup : ∀ i, (k.lists i).Nodup
  mem : ∀ i t, t ∈ k.lists i ↔ L t ∧ (k.tcb t).listIdx = i
  kept : ∀ t, L t → (k.tcb t).state ≠ .new ∧ (k.tcb t).state ≠ .terminated
  grouped : Grouped (fun u => (k.tcb u).pcb) (k.lists (.state .ready))
  first : ∀ t ∈ (k.lists (.reason .readline)).tail, (k.tcb t).detail.firstReader = false

section
variable {k : Threads} {L L' : Thread → Prop} {t x : Thread} {state : ThreadState}
variable {detail : Option BlockingDetail} {l pre post : List Thread}

theorem Lined.wellFormed (lined : Lined k L) : k.WellFormed :=
  ⟨lined.nodup, fun i t mem => ((lined.mem i t).mp mem).2⟩

theorem Lined.congr (lined : Lined k L) (same : ∀ t, L' t ↔ L t) : Lined k L' where
  nodup := lined.nodup
  mem i t := by rw [lined.mem, same]
  kept t listed := lined.kept t ((same t).mp listed)
  grouped := lined.grouped
  first := lined.first

/-- A list with all the threads of one state is that thread, if there is only one. -/
theorem Lined.singleton (lined : Lined k L) {i : ListIdx} (one : L t ∧ (k.tcb t).listIdx = i)
    (only : ∀ u, L u → (k.tcb u).listIdx = i → u = t) : k.lists i = [t] := by
  have all : ∀ u ∈ k.lists i, u = t := fun u mem =>
    only u ((lined.mem i u).mp mem).1 ((lined.mem i u).mp mem).2
  obtain ⟨h, rest, list⟩ := List.exists_cons_of_ne_nil (List.ne_nil_of_mem ((lined.mem i t).mpr one))
  have nodup := lined.nodup i
  rw [list] at all nodup ⊢
  obtain rfl := all h List.mem_cons_self
  cases rest with
  | nil => rfl
  | cons u rest =>
      obtain rfl := all u (by simp)
      exact absurd List.mem_cons_self (List.nodup_cons.mp nodup).1

/-- What stands behind the head stands there without an element, too. -/
theorem mem_tail_erase {u : Thread} (mem : u ∈ (l.erase t).tail) : u ∈ l.tail := by
  cases l with
  | nil => exact mem
  | cons h rest =>
      by_cases head : h = t
      · subst head
        rw [List.erase_cons_head] at mem
        exact List.mem_of_mem_tail mem
      · rw [List.erase_cons_tail (by simpa using head)] at mem
        exact List.mem_of_mem_erase mem

/-! ### `alter_state` -/

/-- A thread is taken out of its list. -/
theorem Lined.unlink (lined : Lined k L) (t : Thread) :
    (∀ i, (k.unlink t i).Nodup) ∧
      (∀ i u, u ∈ k.unlink t i ↔ (L u ∧ (k.tcb u).listIdx = i) ∧ u ≠ t) ∧
      Grouped (fun u => (k.tcb u).pcb) (k.unlink t (.state .ready)) ∧
      ∀ u ∈ (k.unlink t (.reason .readline)).tail, (k.tcb u).detail.firstReader = false := by
  have wf := lined.wellFormed
  have sub : ∀ i, (k.unlink t i).Sublist (k.lists i) := by
    intro i
    by_cases own : i = (k.tcb t).listIdx
    · rw [own, Threads.unlink, Function.update_self]
      exact List.erase_sublist
    · rw [Threads.unlink_other own]
  refine ⟨wf.nodup_unlink, fun i u => ?_, lined.grouped.sublist (sub _), fun u mem => ?_⟩
  · rw [← lined.mem]
    constructor
    · intro mem
      exact ⟨Threads.mem_unlink mem, fun same => wf.not_mem_unlink i (same ▸ mem)⟩
    · rintro ⟨mem, other⟩
      exact Rings.mem_unlink_of_ne mem other
  · refine lined.first u ?_
    by_cases own : ListIdx.reason .readline = (k.tcb t).listIdx
    · rw [Threads.unlink, own, Function.update_self] at mem
      rw [own]
      exact mem_tail_erase mem
    · rwa [Threads.unlink_other own] at mem

theorem Lined.ended (lined : Lined k L) (listed : L t) (rest : ∀ u, L' u ↔ L u ∧ u ≠ t) :
    Lined (k.ended t) L' := by
  obtain ⟨nodup, mem, grouped, first⟩ := lined.unlink t
  have other : ∀ {u}, u ≠ t → (k.ended t).tcb u = k.tcb u := fun ne => Function.update_of_ne ne ..
  have pcbs : ∀ u, ((k.ended t).tcb u).pcb = (k.tcb u).pcb := by
    intro u
    by_cases self : u = t
    · subst self
      simp [Threads.ended]
    · rw [other self]
  refine ⟨nodup, fun i u => ?_, fun u here => ?_, ?_, fun u inTail => ?_⟩
  · rw [rest]
    refine (mem i u).trans ⟨fun h => ⟨⟨h.1.1, h.2⟩, ?_⟩, fun h => ⟨⟨h.1.1, ?_⟩, h.1.2⟩⟩
    · rw [other h.2, h.1.2]
    · rw [← other h.1.2, h.2]
  · obtain ⟨old, ne⟩ := (rest u).mp here
    rw [other ne]
    exact lined.kept u old
  · simp only [pcbs]
    exact grouped
  · have inList := (mem _ u).mp (List.mem_of_mem_tail inTail)
    rw [other inList.2]
    exact first u inTail

/-- Where a thread goes that changes its list. -/
theorem destination_altered (target : state ≠ .new) (given : state = .waiting → detail ≠ none) :
    ∃ d frontPushed,
      k.destination t detail state = some ((altered (k.tcb t) state detail).listIdx, d, frontPushed) := by
  have goes : ∃ out, k.destination t detail state = some out := by
    cases state with
    | waiting =>
        obtain ⟨detail, rfl⟩ := Option.ne_none_iff_exists'.mp (given rfl)
        exact ⟨_, rfl⟩
    | new => exact absurd rfl target
    | ready => exact ⟨_, rfl⟩
    | running => exact ⟨_, rfl⟩
    | terminated => exact ⟨_, rfl⟩
  obtain ⟨⟨idx, d, frontPushed⟩, goes⟩ := goes
  refine ⟨d, frontPushed, ?_⟩
  rw [goes, Threads.destination_idx goes]
  by_cases waits : state = .waiting <;> simp [altered, Tcb.listIdx, waits]

/-- Who goes to the `READY` list. -/
theorem altered_ready {tcb : Tcb} (goes : (altered tcb state detail).listIdx = .state .ready) :
    state = .ready := by
  simp only [altered, Tcb.listIdx] at goes
  split_ifs at goes
  simpa using goes

/-- Who goes to the `READLINE` list. -/
theorem altered_readline {tcb : Tcb} (goes : (altered tcb state detail).listIdx = .reason .readline)
    (given : state = .waiting → detail ≠ none) :
    ∃ first, state = .waiting ∧ detail = some (.readline first) := by
  simp only [altered, Tcb.listIdx] at goes
  split_ifs at goes with waits
  obtain ⟨detail, rfl⟩ := Option.ne_none_iff_exists'.mp (given waits)
  simp only [Option.getD_some, ListIdx.reason.injEq] at goes
  cases detail with
  | readline first => exact ⟨first, waits, rfl⟩
  | _ => cases goes

/-- A new element of the `READLINE` list: in front if it is a first reader, else at the end. -/
theorem first_place {p : Thread → Prop} {frontPushed : Bool} (new : t ∉ l) (behind : ∀ u ∈ l.tail, p u)
    (own : frontPushed = false → p t) (all : frontPushed = true → ∀ u ∈ l, p u) :
    ∀ u ∈ (place l t l.head? frontPushed).tail, p u := by
  cases l with
  | nil => simp [place]
  | cons h rest =>
      have other : h ≠ t := fun same => new (same ▸ List.mem_cons_self)
      cases frontPushed with
      | true => simpa [place, other] using all rfl
      | false =>
          have placed := place_head (t := t) (List.cons_ne_nil h rest) new
          rw [placed]
          intro u mem
          rw [List.cons_append, List.tail_cons, List.mem_append, List.mem_singleton] at mem
          rcases mem with mem | rfl
          · exact behind u mem
          · exact own rfl

/-- A thread goes to another of these lists. -/
theorem Lined.alter (lined : Lined k L) (listed : L t) (target : state ≠ .new)
    (goesOn : state ≠ .terminated) (given : state = .waiting → detail ≠ none)
    (apart : (altered (k.tcb t) state detail).listIdx ≠ (k.tcb t).listIdx)
    (alone : (altered (k.tcb t) state detail).listIdx = .reason .readline →
      (altered (k.tcb t) state detail).detail.firstReader = true →
      ∀ u, L u → (k.tcb u).listIdx = .reason .readline → (k.tcb u).detail.firstReader = false) :
    Lined (k.alter t state detail) L ∧
      (k.alter t state detail).tcb = Function.update k.tcb t (altered (k.tcb t) state detail) ∧
      (k.alterState t state detail).isSome = true := by
  obtain ⟨d, frontPushed, goes⟩ := destination_altered (k := k) (t := t) target given
  have wf := lined.wellFormed
  have old := (lined.kept t listed).1
  have mem : t ∈ k.lists (k.tcb t).listIdx := (lined.mem _ t).mpr ⟨listed, rfl⟩
  have slot := Rings.stands goes
  obtain ⟨nodup, memOut, grouped, first⟩ := lined.unlink t
  generalize next : altered (k.tcb t) state detail = new at goes apart alone slot
  have tcbs : (k.alter t state detail).tcb = Function.update k.tcb t new := by
    rw [Threads.alterState_eq old mem goes, ← next]
    rfl
  have pcbs : ∀ u, ((k.alter t state detail).tcb u).pcb = (k.tcb u).pcb :=
    fun u => (Threads.alter_names u).1
  have out : t ∉ k.unlink t new.listIdx := wf.not_mem_unlink _
  have same : k.unlink t new.listIdx = k.lists new.listIdx := Threads.unlink_other apart
  have lists : ∀ i, (k.alter t state detail).lists i =
      if i = new.listIdx then place (k.lists i) t d frontPushed else k.unlink t i := by
    intro i
    rw [Threads.alterState_eq old mem goes]
    split_ifs with here
    · rw [here, Threads.moved_lists_self, same]
    · rw [Threads.moved_lists_other here]
  have other : d ≠ some t := fun own => by
    rw [same] at out
    exact out (slot.mem t own)
  obtain ⟨pre, post, split, placed⟩ : ∃ pre post, k.lists new.listIdx = pre ++ post ∧
      place (k.lists new.listIdx) t d frontPushed = pre ++ t :: post :=
    place_splits slot.empty other
  refine ⟨⟨fun i => ?_, fun i u => ?_, fun u here => ?_, ?_, ?_⟩, tcbs, ?_⟩
  · rw [lists]
    split_ifs with here
    · rw [here, ← same]
      exact nodup_place (nodup _) out d frontPushed
    · exact nodup i
  · rw [tcbs]
    by_cases self : u = t
    · subst self
      rw [Function.update_self, lists]
      split_ifs with here
      · subst here
        rw [placed]
        simp [listed]
      · simpa [memOut] using fun _ => Ne.symm here
    · rw [Function.update_of_ne self, ← lined.mem, lists]
      split_ifs with here
      · subst here
        rw [placed, split]
        simp [self]
      · rw [memOut, lined.mem]
        simp [self]
  · rw [tcbs]
    by_cases self : u = t
    · subst self
      rw [Function.update_self, ← next]
      exact ⟨target, goesOn⟩
    · rw [Function.update_of_ne self]
      exact lined.kept u here
  · simp only [pcbs]
    rw [lists]
    split_ifs with here
    · -- behind the last thread of its process
      obtain rfl : state = .ready := by
        rw [← next] at here
        exact (altered_ready here.symm)
      simp only [Threads.destination, Option.some.injEq, Prod.mk.injEq] at goes
      obtain ⟨-, rfl, rfl⟩ := goes
      rw [← here] at out same
      rw [same] at out
      obtain ⟨pre, post, split, placed, behind, last⟩ :=
        place_ready (fun u => (k.tcb u).pcb) (lined.nodup (.state .ready)) out
      rw [placed]
      have all := lined.grouped
      rw [split] at all
      exact all.insert behind last
    · exact grouped
  · rw [lists]
    have others : ∀ u, u ≠ t → (Function.update k.tcb t new u) = k.tcb u :=
      fun u ne => Function.update_of_ne ne ..
    rw [tcbs]
    split_ifs with here
    · obtain ⟨b, rfl, rfl⟩ := altered_readline (next ▸ here.symm) given
      simp only [Threads.destination, BlockingDetail.reason, Option.map_some, Option.some.injEq,
        Prod.mk.injEq] at goes
      obtain ⟨-, rfl, rfl⟩ := goes
      rw [← here] at out same
      rw [same] at out
      refine first_place out (fun u mem => ?_) (fun b => ?_) fun b u mem => ?_
      · rw [others u (fun same => out (same ▸ List.mem_of_mem_tail mem))]
        exact lined.first u mem
      · rw [Function.update_self, ← next, b]
        rfl
      · rw [others u (fun same => out (same ▸ mem))]
        refine alone here.symm ?_ u ((lined.mem _ u).mp mem).1 ((lined.mem _ u).mp mem).2
        rw [← next, b]
        rfl
    · intro u inTail
      rw [others u ((memOut _ u).mp (List.mem_of_mem_tail inTail)).2]
      exact first u inTail
  · rw [Threads.alterState, if_neg (by tauto), goes]
    rfl

/-! ### Round robin, and new threads -/

theorem Lined.roundRobin (lined : Lined k L) : Lined k.roundRobin.1 L := by
  have perm := Threads.rotate_perm (fun u => (k.tcb u).pcb) (k.lists (.state .ready))
  have lists : ∀ i, (k.roundRobin.1.lists i).Perm (k.lists i) := by
    intro i
    by_cases here : i = .state .ready
    · subst here
      simpa only [Threads.roundRobin, Function.update_self] using perm
    · simp only [Threads.roundRobin, Function.update_of_ne here]
      exact .refl _
  refine ⟨fun i => (lists i).nodup_iff.mpr (lined.nodup i), fun i u => ?_, lined.kept, ?_, ?_⟩
  · rw [(lists i).mem_iff]
    exact lined.mem i u
  · simp only [Threads.roundRobin, Function.update_self]
    exact grouped_rotate lined.grouped
  · simp only [Threads.roundRobin]
    rw [Function.update_of_ne (by decide)]
    exact lined.first

/-- A new thread somewhere in the `READY` list. -/
theorem Lined.insert (lined : Lined k L) (new : ¬ L x) (ready : (k.tcb x).state = .ready)
    (rest : ∀ u, L' u ↔ L u ∨ u = x) (split : k.lists (.state .ready) = pre ++ post)
    (grouped : Grouped (fun u => (k.tcb u).pcb) (pre ++ x :: post)) :
    Lined { k with lists := Function.update k.lists (.state .ready) (pre ++ x :: post) } L' := by
  have out : x ∉ pre ++ post := by
    rw [← split, lined.mem]
    exact fun both => new both.1
  have idx : (k.tcb x).listIdx = .state .ready := by simp [Tcb.listIdx, ready]
  refine ⟨fun i => ?_, fun i u => ?_, fun u here => ?_, by simpa using grouped, ?_⟩
  · by_cases here : i = .state .ready
    · subst here
      have nodup := lined.nodup (.state .ready)
      rw [split] at nodup
      simpa using (List.perm_middle).nodup_iff.mpr (List.nodup_cons.mpr ⟨out, nodup⟩)
    · simpa [here] using lined.nodup i
  · rw [rest]
    by_cases self : u = x
    · subst self
      by_cases here : i = .state .ready
      · subst here
        simp [idx]
      · have absent : u ∉ k.lists i := fun mem => new ((lined.mem i u).mp mem).1
        simp only [Function.update_of_ne here, absent, or_true, true_and, false_iff]
        exact fun same => here (same.symm.trans idx)
    · by_cases here : i = .state .ready
      · subst here
        have old := lined.mem (.state .ready) u
        rw [split] at old
        simpa [self] using old
      · simpa [here, self] using lined.mem i u
  · rcases (rest u).mp here with old | rfl
    · exact lined.kept u old
    · simp [ready]
  · simp only [ne_eq, reduceCtorEq, not_false_eq_true, Function.update_of_ne]
    exact lined.first

/-- A TCB that is in no list changes. -/
theorem Lined.update (lined : Lined k L) (new : ¬ L x) (tcb : Tcb) :
    Lined { k with tcb := Function.update k.tcb x tcb } L := by
  have other : ∀ u, L u → Function.update k.tcb x tcb u = k.tcb u := by
    intro u listed
    refine Function.update_of_ne ?_ ..
    rintro rfl
    exact new listed
  have keys : ∀ u ∈ k.lists (.state .ready), (Function.update k.tcb x tcb u).pcb = (k.tcb u).pcb :=
    fun u mem => by rw [other u ((lined.mem _ u).mp mem).1]
  refine ⟨lined.nodup, fun i u => ?_, fun u listed => ?_, ?_, fun u mem => ?_⟩
  · rw [lined.mem]
    refine and_congr_right fun listed => ?_
    dsimp only
    rw [other u listed]
  · dsimp only
    rw [other u listed]
    exact lined.kept u listed
  · exact lined.grouped.congr keys
  · dsimp only
    rw [other u ((lined.mem _ u).mp (List.mem_of_mem_tail mem)).1]
    exact lined.first u mem

theorem Lined.enqueue (lined : Lined k L) (new : ¬ L x) (ready : (k.tcb x).state = .ready)
    (rest : ∀ u, L' u ↔ L u ∨ u = x) : Lined (k.enqueue x) L' := by
  have out : x ∉ k.lists (.state .ready) := fun mem => new ((lined.mem _ x).mp mem).1
  obtain ⟨pre, post, split, placed, behind, last⟩ :=
    place_ready (fun u => (k.tcb u).pcb) (lined.nodup (.state .ready)) out
  have all := lined.grouped
  rw [split] at all
  simp only [Threads.enqueue, placed]
  exact lined.insert new ready rest split (all.insert behind last)

theorem Lined.append (lined : Lined k L) (new : ¬ L x) (ready : (k.tcb x).state = .ready)
    (rest : ∀ u, L' u ↔ L u ∨ u = x) (own : ∀ u, L u → (k.tcb u).pcb ≠ (k.tcb x).pcb) :
    Lined (k.append x) L' := by
  have other : ∀ u ∈ k.lists (.state .ready), (k.tcb u).pcb ≠ (k.tcb x).pcb :=
    fun u mem => own u ((lined.mem _ u).mp mem).1
  have all := lined.grouped
  rw [← List.append_nil (k.lists (.state .ready))] at all
  exact lined.insert new ready rest (List.append_nil _).symm
    (all.insert (by simp) (.inr ⟨rfl, other⟩))

end

end OsKernel.Dispatch
