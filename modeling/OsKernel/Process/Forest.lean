/-
The child lists form a forest below the root.

`Rep s kids` says that the pointers of `s` are those of the lists `kids`: one
circular list for every process, every process but the root in the list of its
parent. A parent is older than its children, so that every process descends from
`init`; this is why a process other than `init` never finds `init` without a
child when it hands over orphans.
-/

import OsKernel.Process.Tree
import Mathlib.Data.List.Perm.Subperm

namespace OsKernel.Process

open Links

variable {s : Tree} {kids : Nat → List Nat} {init p c : Nat}

/-- The lists that the pointers of live processes represent. -/
structure Lists (s : Tree) (kids : Nat → List Nat) : Prop where
  ring : ∀ q, s.live q → s.links.Ring (kids q)
  head : ∀ q, s.live q → s.children q = (kids q).head?
  apart : ∀ q q', s.live q → s.live q' → q ≠ q' → (kids q).Disjoint (kids q')

structure Rep (s : Tree) (kids : Nat → List Nat) (init : Nat) : Prop extends Lists s kids where
  kid : ∀ q x, s.live q → x ∈ kids q → s.live x ∧ s.parent x = some q
  owned : ∀ x, s.live x → x ≠ s.root → ∃ q, s.live q ∧ s.parent x = some q ∧ x ∈ kids q
  root : s.live s.root
  orphan : s.parent s.root = none
  first : kids s.root = [init]
  serial_root : s.serial s.root = 0
  serial_init : s.serial init = 1
  serial_lt : ∀ x, s.live x → s.serial x < s.created
  serial_inj : ∀ x y, s.live x → s.live y → s.serial x = s.serial y → x = y
  older : ∀ x q, s.live x → s.parent x = some q → s.serial q < s.serial x

namespace Rep

theorem init_live (h : Rep s kids init) : s.live init ∧ s.parent init = some s.root :=
  h.kid s.root init h.root (by rw [h.first]; exact List.mem_singleton_self init)

theorem init_ne_root (h : Rep s kids init) : init ≠ s.root := by
  intro eq
  have := h.init_live.2
  rw [eq, h.orphan] at this
  cases this

/-- There are fewer children than processes. -/
theorem length_le (h : Rep s kids init) {q : Nat} (live : s.live q) :
    (kids q).length ≤ s.created := by
  have inj : ∀ x ∈ kids q, ∀ y ∈ kids q, s.serial x = s.serial y → x = y := fun x hx y hy eq =>
    h.serial_inj x y (h.kid q x live hx).1 (h.kid q y live hy).1 eq
  have nodup : ((kids q).map s.serial).Nodup := List.Nodup.map_on inj (h.ring q live).nodup
  have sub : (kids q).map s.serial ⊆ List.range s.created := by
    intro n hn
    obtain ⟨x, hx, rfl⟩ := List.mem_map.mp hn
    exact List.mem_range.mpr (h.serial_lt x (h.kid q x live hx).1)
  have le := (List.subperm_of_subset nodup sub).length_le
  rwa [List.length_map, List.length_range] at le

/-- The loop over a list visits the children. -/
theorem childrenOf_eq (h : Rep s kids init) {q : Nat} (live : s.live q) :
    s.childrenOf q = kids q := by
  rw [Tree.childrenOf, h.head q live]
  have ring := h.ring q live
  have fuel := h.length_le live
  cases hk : kids q with
  | nil => rfl
  | cons a l =>
      rw [hk] at ring fuel
      exact ring.walk fuel

/-- Every process but the root and `init` descends from `init`. -/
theorem init_has_kids (h : Rep s kids init) {x : Nat} (live : s.live x) (ne : x ≠ s.root)
    (ne' : x ≠ init) : kids init ≠ [] := by
  -- up the parents, which get older and older
  induction hn : s.serial x using Nat.strong_induction_on generalizing x with
  | _ n ih =>
      obtain ⟨q, live', parent, mem⟩ := h.owned x live ne
      by_cases top : q = s.root
      · rw [top, h.first, List.mem_singleton] at mem
        exact absurd mem ne'
      by_cases here : q = init
      · rw [here] at mem
        exact List.ne_nil_of_mem mem
      · exact ih (s.serial q) (hn ▸ h.older x q live parent) live' top here rfl

theorem not_mem_of_ne (h : Rep s kids init) {q q' x : Nat} (live : s.live q) (live' : s.live q')
    (ne : q ≠ q') (mem : x ∈ kids q) : x ∉ kids q' :=
  fun mem' => h.apart q q' live live' ne mem mem'

theorem self_not_mem (h : Rep s kids init) {q : Nat} (live : s.live q) : q ∉ kids q := by
  intro mem
  obtain ⟨-, parent⟩ := h.kid q q live mem
  exact Nat.lt_irrefl _ (h.older q q live parent)

end Rep

/-! ### Taking a child out -/

/-- `detach` changes pointers only. -/
theorem detach_frame (s : Tree) (p c : Nat) : s.detach p c =
    { s with links := (s.detach p c).links, children := (s.detach p c).children } := by
  unfold Tree.detach
  split <;> rfl

theorem Lists.detach (h : Lists s kids) (live : s.live p) (mem : c ∈ kids p) :
    Lists (s.detach p c) (Function.update kids p ((kids p).erase c)) := by
  have ring := h.ring p live
  have nodup := ring.nodup
  have sub : ∀ q x, x ∈ Function.update kids p ((kids p).erase c) q → x ∈ kids q := by
    intro q x hx
    by_cases same : q = p
    · subst same
      rw [Function.update_self] at hx
      exact List.mem_of_mem_erase hx
    · rwa [Function.update_of_ne same] at hx
  have live_eq : (s.detach p c).live = s.live := by rw [detach_frame]
  refine ⟨fun q hq => ?_, fun q hq => ?_, fun q q' hq hq' ne => ?_⟩ <;> rw [live_eq] at hq
  · -- the rings
    by_cases alone : s.links.next c = c
    · rw [Tree.detach, if_pos alone]
      by_cases same : q = p
      · subst same
        rw [Function.update_self, (ring.next_eq_self mem).mp alone, List.erase_cons_head]
        trivial
      · rw [Function.update_of_ne same]
        exact h.ring q hq
    · rw [Tree.detach, if_neg alone]
      by_cases same : q = p
      · subst same
        rw [Function.update_self]
        exact (ring.erase mem).of_single (by simp [nodup.mem_erase_iff])
      · rw [Function.update_of_ne same]
        have apart := h.apart q p hq live same
        exact ((h.ring q hq).of_unlink ring mem apart).of_single fun hc => apart hc mem
  · -- the heads
    have heads := ring.head_erase mem
    rw [← h.head p live] at heads
    by_cases alone : s.links.next c = c
    · rw [Tree.detach, if_pos alone]
      dsimp only
      by_cases same : q = p
      · subst same
        rw [Function.update_self, Function.update_self, (ring.next_eq_self mem).mp alone,
          List.erase_cons_head]
        rfl
      · rw [Function.update_of_ne same, Function.update_of_ne same]
        exact h.head q hq
    · rw [Tree.detach, if_neg alone]
      by_cases same : q = p
      · subst same
        rw [Function.update_self, heads, if_neg alone]
        dsimp only
        split
        · rw [Function.update_self]
        · rfl
      · rw [Function.update_of_ne same]
        dsimp only
        split
        · rw [Function.update_of_ne same]
          exact h.head q hq
        · exact h.head q hq
  · rw [live_eq] at hq'
    exact fun x hx hx' => h.apart q q' hq hq' ne (sub q x hx) (sub q' x hx')

/-! ### Handing over the orphans -/

/-- The loop over the parent pointers changes those of the nodes it passes, up to
one whose parent is `init` already. -/
theorem reparent_eq {links : Links Nat} {l : List Nat} (stop x n : Nat)
    (parent : Nat → Option Nat) (chain : (x :: l ++ [stop]).IsChain links.Joined)
    (nodup : (x :: l).Nodup) (others : ∀ y ∈ x :: l, parent y ≠ some init)
    (stops : stop = x ∨ parent stop = some init) (fuel : l.length + 1 < n) :
    Tree.reparent links init n x parent =
      fun y => if y ∈ x :: l then some init else parent y := by
  -- once `x` is passed, the loop is bound to stop at `stop`
  have stops' : Function.update parent x (some init) stop = some init := by
    by_cases same : stop = x
    · rw [same, Function.update_self]
    · rw [Function.update_of_ne same]
      exact stops.resolve_left same
  induction l generalizing x n parent with
  | nil =>
      obtain ⟨k, rfl⟩ := Nat.exists_eq_add_of_lt fuel
      have next : links.next x = stop := (List.isChain_pair.mp chain).1
      have go : Tree.reparent links init (0 + 1 + k + 1) x parent =
          Function.update parent x (some init) := by
        rw [Tree.reparent, if_neg (others x List.mem_cons_self), next, Nat.zero_add, Nat.add_comm 1 k,
          Tree.reparent, if_pos stops']
      rw [List.length_nil, go]
      funext y
      simp [Function.update_apply]
  | cons z l ih =>
      cases n with
      | zero => simp at fuel
      | succ n =>
          rw [List.cons_append, List.cons_append, List.isChain_cons_cons] at chain
          obtain ⟨⟨next, -⟩, chain⟩ := chain
          obtain ⟨out, nodup⟩ := List.nodup_cons.mp nodup
          rw [Tree.reparent, if_neg (others x List.mem_cons_self), next]
          rw [ih z n (Function.update parent x (some init)) chain nodup ?_ (.inr stops')
            (by simpa using fuel) ?_]
          · funext y
            by_cases same : y = x
            · subst same
              simp [out]
            · simp [same]
          · intro y hy
            have ne : y ≠ x := fun eq => out (eq ▸ hy)
            rw [Function.update_of_ne ne]
            exact others y (List.mem_cons_of_mem x hy)
          · by_cases same : stop = z
            · rw [same, Function.update_self]
            · rw [Function.update_of_ne same]
              exact stops'

/-- `hand_over` changes pointers only. -/
theorem handOver_frame (s : Tree) (p c init : Nat) : s.handOver p c init =
    { s with links := (s.handOver p c init).links, children := (s.handOver p c init).children,
             parent := (s.handOver p c init).parent } := by
  unfold Tree.handOver
  split
  · rfl
  · split <;> rfl

/-- The children of `c` go to the end of the list of `init`. -/
theorem Lists.handOver (h : Lists s kids) (live : s.live c) (live' : s.live init) (ne : c ≠ init)
    (caller : kids init = [] → p = init)
    (parents : ∀ x ∈ kids init, s.parent x = some init)
    (parents' : ∀ x ∈ kids c, s.parent x = some c)
    (fuel : (kids c).length ≤ s.created) :
    (∀ q, s.live q → q ≠ c → (s.handOver p c init).links.Ring
        (kids q ++ if q = init then kids c else [])) ∧
      (∀ q, s.live q → q ≠ c → (s.handOver p c init).children q =
        (kids q ++ if q = init then kids c else []).head?) ∧
      (s.handOver p c init).parent = fun x => if x ∈ kids c then some init else s.parent x := by
  have ringC := h.ring c live
  have ringI := h.ring init live'
  have headC := h.head c live
  have headI := h.head init live'
  unfold Tree.handOver
  cases hc : kids c with
  | nil =>
      rw [hc] at headC
      simp only [headC, List.head?_nil]
      refine ⟨fun q hq _ => ?_, fun q hq _ => ?_, ?_⟩
      · simpa using h.ring q hq
      · simpa using h.head q hq
      · funext x
        simp
  | cons g l =>
      rw [hc] at headC ringC parents' fuel
      simp only [headC, List.head?_cons]
      have orphans : ∀ y ∈ g :: l, s.parent y ≠ some init := by
        intro y hy eq
        rw [parents' y hy, Option.some.injEq] at eq
        exact ne eq
      cases hi : kids init with
      | nil =>
          rw [hi] at headI
          simp only [headI, List.head?_nil]
          have here := caller hi
          subst here
          refine ⟨fun q hq _ => ?_, fun q hq _ => ?_, ?_⟩
          · by_cases same : q = p
            · subst same
              rw [if_pos rfl, hi]
              exact ringC
            · rw [if_neg same, List.append_nil]
              exact h.ring q hq
          · by_cases same : q = p
            · subst same
              rw [if_pos rfl, hi, Function.update_self]
              rfl
            · rw [if_neg same, List.append_nil, Function.update_of_ne same]
              exact h.head q hq
          · exact reparent_eq g g _ s.parent ringC.2 ringC.nodup orphans (.inl rfl)
              (Nat.succ_lt_succ fuel)
      | cons a m =>
          rw [hi] at headI ringI parents
          simp only [headI, List.head?_cons]
          have apart : List.Disjoint (a :: m) (g :: l) := by
            have := h.apart init c live' live ne.symm
            rwa [hi, hc] at this
          have spliced := ringI.splice ringC apart
          refine ⟨fun q hq _ => ?_, fun q hq _ => ?_, ?_⟩
          · by_cases same : q = init
            · subst same
              rw [if_pos rfl, hi]
              exact spliced
            · rw [if_neg same, List.append_nil]
              refine (h.ring q hq).of_splice ringI ringC ?_ ?_
              · exact hi ▸ h.apart q init hq live' same
              · exact hc ▸ h.apart q c hq live ‹_›
          · by_cases same : q = init
            · subst same
              rw [if_pos rfl, hi]
              exact headI
            · rw [if_neg same, List.append_nil]
              exact h.head q hq
          · refine reparent_eq a g _ s.parent ?_ ringC.nodup orphans
              (.inr (parents a List.mem_cons_self)) (Nat.succ_lt_succ fuel)
            have rotated : (s.links.splice a g).Ring (g :: l ++ a :: m) := Ring.rotate spliced
            have chain := rotated.2
            change (g :: l ++ a :: m ++ [g]).IsChain _ at chain
            rw [List.append_assoc] at chain
            exact (List.isChain_split.mp chain).1

/-! ### Reaping -/

/-- The lists after `c` was reaped. -/
def reapedKids (kids : Nat → List Nat) (init c q : Nat) : List Nat :=
  (kids q).erase c ++ if q = init then kids c else []

theorem mem_reapedKids (h : Rep s kids init) {q x : Nat} (live : s.live q) :
    x ∈ reapedKids kids init c q ↔ (x ∈ kids q ∧ x ≠ c) ∨ (q = init ∧ x ∈ kids c) := by
  rw [reapedKids, List.mem_append, (h.ring q live).nodup.mem_erase_iff, and_comm]
  by_cases same : q = init
  · simp [same]
  · simp [same]

/-- Who is reaped: neither the root, nor `init`, nor the caller. -/
structure Child (s : Tree) (kids : Nat → List Nat) (init p c : Nat) : Prop where
  caller : s.live p
  not_root : p ≠ s.root
  mem : c ∈ kids p

namespace Child

theorem live (h : Rep s kids init) (k : Child s kids init p c) : s.live c :=
  (h.kid p c k.caller k.mem).1

theorem ne_root (h : Rep s kids init) (k : Child s kids init p c) : c ≠ s.root := by
  rintro rfl
  have := (h.kid p _ k.caller k.mem).2
  rw [h.orphan] at this
  cases this

theorem ne_init (h : Rep s kids init) (k : Child s kids init p c) : c ≠ init := by
  rintro rfl
  refine h.not_mem_of_ne h.root k.caller k.not_root.symm ?_ k.mem
  rw [h.first]
  exact List.mem_singleton_self c

theorem ne_caller (h : Rep s kids init) (k : Child s kids init p c) : c ≠ p := by
  rintro rfl
  exact h.self_not_mem k.caller k.mem

end Child

/-- The pointers after a reap. -/
theorem reap_lists (h : Rep s kids init) (k : Child s kids init p c) :
    (∀ q, s.live q → q ≠ c → (s.reap p c init).links.Ring (reapedKids kids init c q)) ∧
      (∀ q, s.live q → q ≠ c →
        (s.reap p c init).children q = (reapedKids kids init c q).head?) ∧
      (s.reap p c init).parent = fun x => if x ∈ kids c then some init else s.parent x := by
  have detached := h.toLists.detach k.caller k.mem
  have kidsC : Function.update kids p ((kids p).erase c) c = kids c :=
    Function.update_of_ne (k.ne_caller h) _ _
  have kidsQ : ∀ q, s.live q → Function.update kids p ((kids p).erase c) q = (kids q).erase c := by
    intro q hq
    by_cases same : q = p
    · rw [same, Function.update_self]
    · rw [Function.update_of_ne same,
        List.erase_of_not_mem (h.not_mem_of_ne k.caller hq (Ne.symm same) k.mem)]
  have frame := detach_frame s p c
  have live_eq : (s.detach p c).live = s.live := by rw [frame]
  have parent_eq : (s.detach p c).parent = s.parent := by rw [frame]
  have created_eq : (s.detach p c).created = s.created := by rw [frame]
  have handed := detached.handOver (c := c) (p := p) (by rw [live_eq]; exact k.live h)
    (by rw [live_eq]; exact h.init_live.1 : (s.detach p c).live init) (k.ne_init h) ?_ ?_ ?_ ?_
  · rw [kidsC, live_eq, parent_eq] at handed
    refine ⟨fun q hq ne => ?_, fun q hq ne => ?_, handed.2.2⟩
    · have := handed.1 q hq ne
      rwa [kidsQ q hq] at this
    · have := handed.2.1 q hq ne
      rwa [kidsQ q hq] at this
  · -- a caller other than `init` finds `init` with children
    intro none
    by_contra other
    rw [Function.update_of_ne (Ne.symm other)] at none
    exact h.init_has_kids k.caller k.not_root other none
  · intro x hx
    rw [kidsQ init h.init_live.1] at hx
    rw [parent_eq]
    exact (h.kid init x h.init_live.1 (List.mem_of_mem_erase hx)).2
  · intro x hx
    rw [kidsC] at hx
    rw [parent_eq]
    exact (h.kid c x (k.live h) hx).2
  · rw [kidsC, created_eq]
    exact h.length_le (k.live h)

/-- `reap` changes pointers, frees the child and keeps the books. -/
theorem reap_frame (s : Tree) (p c init : Nat) : s.reap p c init =
    { s with links := (s.reap p c init).links, children := (s.reap p c init).children,
             parent := (s.reap p c init).parent, live := Function.update s.live c false
             had := Function.update s.had (s.serial init)
               (s.had (s.serial init) + (s.childrenOf c).length)
             returned := s.returned ++ [(s.serial p, s.serial c)] } := by
  unfold Tree.reap
  rw [handOver_frame, detach_frame]

theorem Rep.reap (h : Rep s kids init) (k : Child s kids init p c) :
    Rep (s.reap p c init) (reapedKids kids init c) init := by
  obtain ⟨rings, heads, parents⟩ := reap_lists h k
  have cLive := k.live h
  have initLive := h.init_live.1
  have frame := reap_frame s p c init
  have live : (s.reap p c init).live = Function.update s.live c false := by rw [frame]
  have root : (s.reap p c init).root = s.root := by rw [frame]
  have serial : (s.reap p c init).serial = s.serial := by rw [frame]
  have created : (s.reap p c init).created = s.created := by rw [frame]
  generalize s.reap p c init = s' at *
  -- the live processes are those of before, without `c`
  have alive : ∀ {q}, s'.live q = true → s.live q = true ∧ q ≠ c := by
    intro q hq
    rw [live] at hq
    by_cases same : q = c
    · rw [same, Function.update_self] at hq
      cases hq
    · rw [Function.update_of_ne same] at hq
      exact ⟨hq, same⟩
  have alive' : ∀ {q}, s.live q = true → q ≠ c → s'.live q = true :=
    fun hq ne => by rw [live, Function.update_of_ne ne]; exact hq
  have moved : ∀ {x}, x ∈ kids c → s'.parent x = some init := fun hx => by simp [parents, hx]
  have stays : ∀ {x}, x ∉ kids c → s'.parent x = s.parent x := fun hx => by simp [parents, hx]
  have member : ∀ {q x}, s.live q → (x ∈ reapedKids kids init c q ↔
      (x ∈ kids q ∧ x ≠ c) ∨ (q = init ∧ x ∈ kids c)) := fun hq => mem_reapedKids h hq
  have root_out : s.root ∉ kids c := by
    intro mem
    have := (h.kid c _ cLive mem).2
    rw [h.orphan] at this
    cases this
  refine { ring := fun q hq => rings q (alive hq).1 (alive hq).2
           head := fun q hq => heads q (alive hq).1 (alive hq).2
           apart := ?_, kid := ?_, owned := ?_
           root := by rw [root]; exact alive' h.root (k.ne_root h).symm
           orphan := by rw [root, stays root_out, h.orphan]
           first := ?_
           serial_root := by rw [root, serial, h.serial_root]
           serial_init := by rw [serial, h.serial_init]
           serial_lt := fun x hx => by rw [serial, created]; exact h.serial_lt x (alive hx).1
           serial_inj := fun x y hx hy => by
             rw [serial]; exact h.serial_inj x y (alive hx).1 (alive hy).1
           older := ?_ }
  · intro q q' hq hq' ne x hx hx'
    obtain ⟨hq, qc⟩ := alive hq
    obtain ⟨hq', qc'⟩ := alive hq'
    rcases (member hq).mp hx with ⟨hx, -⟩ | ⟨hi, hx⟩ <;>
      rcases (member hq').mp hx' with ⟨hx', -⟩ | ⟨hi', hx'⟩
    · exact h.apart q q' hq hq' ne hx hx'
    · exact h.apart q c hq cLive qc hx hx'
    · exact h.apart q' c hq' cLive qc' hx' hx
    · exact ne (hi.trans hi'.symm)
  · intro q x hq hx
    obtain ⟨hq, qc⟩ := alive hq
    rcases (member hq).mp hx with ⟨old, xc⟩ | ⟨rfl, old⟩
    · obtain ⟨hl, hp⟩ := h.kid q x hq old
      exact ⟨alive' hl xc, (stays (h.not_mem_of_ne hq cLive qc old)).trans hp⟩
    · obtain ⟨hl, -⟩ := h.kid c x cLive old
      refine ⟨alive' hl ?_, moved old⟩
      rintro rfl
      exact h.self_not_mem cLive old
  · intro x hx ne
    obtain ⟨hx, xc⟩ := alive hx
    obtain ⟨q, hq, hp, mem⟩ := h.owned x hx (root ▸ ne)
    by_cases same : q = c
    · subst same
      exact ⟨init, alive' initLive (k.ne_init h).symm, moved mem,
        (member initLive).mpr (.inr ⟨rfl, mem⟩)⟩
    · exact ⟨q, alive' hq same, (stays (h.not_mem_of_ne hq cLive same mem)).trans hp,
        (member hq).mpr (.inl ⟨mem, xc⟩)⟩
  · rw [root, reapedKids, h.first, if_neg h.init_ne_root.symm, List.append_nil,
      List.erase_of_not_mem (by simpa using k.ne_init h)]
  · intro x q hx hp
    obtain ⟨hx, -⟩ := alive hx
    rw [serial]
    by_cases mem : x ∈ kids c
    · -- an orphan is younger than its parent was, and that was not the root
      rw [moved mem, Option.some.injEq] at hp
      subst hp
      have older := h.older x c hx (h.kid c x cLive mem).2
      have notFirst : s.serial c ≠ 0 := by
        rw [← h.serial_root]
        exact fun eq => k.ne_root h (h.serial_inj c s.root cLive h.root eq)
      rw [h.serial_init]
      omega
    · rw [stays mem] at hp
      exact h.older x q hx hp

/-! ### Fork -/

/-- The lists after `addr` was pushed to the list of `p`. -/
def forkedKids (kids : Nat → List Nat) (p addr : Nat) : Nat → List Nat :=
  Function.update (Function.update kids p (kids p ++ [addr])) addr []

theorem Lists.pushChild (h : Rep s kids init) (live : s.live p) {addr : Nat}
    (free : s.live addr = false) : Lists (s.pushChild p addr) (forkedKids kids p addr) := by
  have ne : p ≠ addr := by
    rintro rfl
    rw [free] at live
    cases live
  have out : ∀ q, s.live q → addr ∉ kids q := by
    intro q hq mem
    have := (h.kid q addr hq mem).1
    rw [free] at this
    cases this
  have was : ∀ {q}, q ≠ addr → (s.pushChild p addr).live q → s.live q := by
    intro q hne hq
    simpa [Tree.pushChild, hne] using hq
  have here : forkedKids kids p addr p = kids p ++ [addr] := by
    rw [forkedKids, Function.update_of_ne ne, Function.update_self]
  have there : ∀ {q}, q ≠ addr → q ≠ p → forkedKids kids p addr q = kids q := by
    intro q h₁ h₂
    rw [forkedKids, Function.update_of_ne h₁, Function.update_of_ne h₂]
  have new : forkedKids kids p addr addr = [] := Function.update_self ..
  refine ⟨fun q hq => ?_, fun q hq => ?_, fun q q' hq hq' hne => ?_⟩
  · change (s.links.pushBack (s.children p) addr).Ring _
    rw [h.head p live]
    by_cases isNew : q = addr
    · rw [isNew, new]
      trivial
    by_cases same : q = p
    · rw [same, here]
      exact (h.ring p live).pushBack (out p live)
    · rw [there isNew same]
      have hq := was isNew hq
      exact (h.ring q hq).of_pushBack (h.ring p live) (out q hq) (h.apart q p hq live same)
  · simp only [Tree.pushChild]
    by_cases isNew : q = addr
    · rw [isNew, new, Function.update_self]
      rfl
    rw [Function.update_of_ne isNew]
    by_cases same : q = p
    · rw [same, here, Function.update_self, h.head p live]
      cases kids p <;> rfl
    · rw [there isNew same, Function.update_of_ne same]
      exact h.head q (was isNew hq)
  · intro x hx hx'
    by_cases isNew : q = addr
    · rw [isNew, new] at hx
      cases hx
    by_cases isNew' : q' = addr
    · rw [isNew', new] at hx'
      cases hx'
    have live₁ := was isNew hq
    have live₂ := was isNew' hq'
    have cases : ∀ {r}, r ≠ addr → x ∈ forkedKids kids p addr r → x ∈ kids r ∨ (r = p ∧ x = addr) := by
      intro r hr hx
      by_cases same : r = p
      · rw [same, here, List.mem_append, List.mem_singleton] at hx
        exact hx.imp (fun hx => same ▸ hx) fun hx => ⟨same, hx⟩
      · rw [there hr same] at hx
        exact .inl hx
    rcases cases isNew hx with old | ⟨eq₁, eq⟩ <;> rcases cases isNew' hx' with old' | ⟨eq₂, eq'⟩
    · exact h.apart q q' live₁ live₂ hne old old'
    · exact out q live₁ (eq' ▸ old)
    · exact out q' live₂ (eq ▸ old')
    · exact hne (eq₁.trans eq₂.symm)

theorem mem_forkedKids {q x addr : Nat} (h : x ∈ forkedKids kids p addr q) :
    q ≠ addr ∧ (x ∈ kids q ∨ (q = p ∧ x = addr)) := by
  by_cases isNew : q = addr
  · rw [isNew, forkedKids, Function.update_self] at h
    cases h
  refine ⟨isNew, ?_⟩
  rw [forkedKids, Function.update_of_ne isNew] at h
  by_cases same : q = p
  · rw [same, Function.update_self, List.mem_append, List.mem_singleton] at h
    exact h.imp (fun h => same ▸ h) fun h => ⟨same, h⟩
  · rw [Function.update_of_ne same] at h
    exact .inl h

theorem mem_forkedKids_of_mem {q x addr : Nat} (ne : q ≠ addr) (h : x ∈ kids q) :
    x ∈ forkedKids kids p addr q := by
  rw [forkedKids, Function.update_of_ne ne]
  by_cases same : q = p
  · rw [same, Function.update_self]
    exact List.mem_append_left _ (same ▸ h)
  · rwa [Function.update_of_ne same]

/-- A fork that succeeds. -/
theorem Rep.forked (h : Rep s kids init) (live : s.live p) (ne : p ≠ s.root) {addr : Nat}
    (free : s.live addr = false) {s' : Tree} (lists : Lists s' (forkedKids kids p addr))
    (live_eq : s'.live = Function.update s.live addr true)
    (parent_eq : s'.parent = Function.update s.parent addr (some p)) (root_eq : s'.root = s.root)
    (created_eq : s'.created = s.created + 1)
    (serial_eq : s'.serial = Function.update s.serial addr s.created) :
    Rep s' (forkedKids kids p addr) init := by
  have dead : ∀ {q}, s.live q → q ≠ addr := by
    rintro q hq rfl
    rw [free] at hq
    cases hq
  have was : ∀ {q}, s'.live q → q ≠ addr → s.live q := by
    intro q hq hne
    rwa [live_eq, Function.update_of_ne hne] at hq
  have still : ∀ {q}, s.live q → s'.live q := by
    intro q hq
    rw [live_eq, Function.update_of_ne (dead hq)]
    exact hq
  have new : s'.live addr := by rw [live_eq, Function.update_self]
  have parent : ∀ {x}, x ≠ addr → s'.parent x = s.parent x := fun hx => by
    rw [parent_eq, Function.update_of_ne hx]
  have serial : ∀ {x}, x ≠ addr → s'.serial x = s.serial x := fun hx => by
    rw [serial_eq, Function.update_of_ne hx]
  have newSerial : s'.serial addr = s.created := by rw [serial_eq, Function.update_self]
  have rootNe := dead h.root
  refine { lists with
    kid := ?_, owned := ?_, root := root_eq ▸ still h.root
    orphan := by rw [root_eq, parent rootNe, h.orphan]
    first := ?_
    serial_root := by rw [root_eq, serial rootNe, h.serial_root]
    serial_init := by rw [serial (dead h.init_live.1), h.serial_init]
    serial_lt := ?_, serial_inj := ?_, older := ?_ }
  · intro q x hq hx
    obtain ⟨hne, old | ⟨rfl, rfl⟩⟩ := mem_forkedKids hx
    · obtain ⟨hl, hp⟩ := h.kid q x (was hq hne) old
      exact ⟨still hl, (parent (dead hl)).trans hp⟩
    · exact ⟨new, by rw [parent_eq, Function.update_self]⟩
  · intro x hx hne
    by_cases isNew : x = addr
    · refine ⟨p, still live, by rw [isNew, parent_eq, Function.update_self], ?_⟩
      rw [isNew, forkedKids, Function.update_of_ne (dead live), Function.update_self]
      simp
    · obtain ⟨q, hq, hp, mem⟩ := h.owned x (was hx isNew) (root_eq ▸ hne)
      exact ⟨q, still hq, (parent isNew).trans hp, mem_forkedKids_of_mem (dead hq) mem⟩
  · rw [root_eq, forkedKids, Function.update_of_ne rootNe, Function.update_of_ne ne.symm, h.first]
  · intro x hx
    rw [created_eq]
    by_cases isNew : x = addr
    · rw [isNew, newSerial]
      exact Nat.lt_succ_self _
    · rw [serial isNew]
      exact Nat.lt_succ_of_lt (h.serial_lt x (was hx isNew))
  · intro x y hx hy eq
    by_cases isNew : x = addr <;> by_cases isNew' : y = addr
    · exact isNew.trans isNew'.symm
    · rw [isNew, newSerial, serial isNew'] at eq
      exact absurd eq (Nat.ne_of_gt (h.serial_lt y (was hy isNew')))
    · rw [isNew', newSerial, serial isNew] at eq
      exact absurd eq (Nat.ne_of_lt (h.serial_lt x (was hx isNew)))
    · rw [serial isNew, serial isNew'] at eq
      exact h.serial_inj x y (was hx isNew) (was hy isNew') eq
  · intro x q hx hp
    by_cases isNew : x = addr
    · rw [isNew, parent_eq, Function.update_self, Option.some.injEq] at hp
      rw [isNew, newSerial, ← hp, serial (dead live)]
      exact h.serial_lt p live
    · rw [parent isNew] at hp
      have notRoot : x ≠ s.root := by
        rintro rfl
        rw [h.orphan] at hp
        cases hp
      obtain ⟨q', hq', hp', -⟩ := h.owned x (was hx isNew) notRoot
      rw [hp, Option.some.injEq] at hp'
      rw [serial isNew, serial (dead (hp' ▸ hq'))]
      exact h.older x q (was hx isNew) hp

/-- `POP_BACK` takes the node that was just pushed. -/
theorem popChild_pushChild (h : Rep s kids init) (live : s.live p) {addr : Nat}
    (free : s.live addr = false) : ∃ front, (s.pushChild p addr).children p = some front ∧
      (front = addr ↔ kids p = []) ∧ (s.pushChild p addr).popChild p =
        { s.pushChild p addr with
          live := s.live
          links := (s.pushChild p addr).links.unlink addr
          children := if front = addr then Function.update (s.pushChild p addr).children p none
            else (s.pushChild p addr).children } := by
  have ne : p ≠ addr := by
    rintro rfl
    rw [free] at live
    cases live
  have out : addr ∉ kids p := by
    intro mem
    have := (h.kid p addr live mem).1
    rw [free] at this
    cases this
  have pushed := Lists.pushChild h live free
  have live' : (s.pushChild p addr).live p := by simpa [Tree.pushChild, ne] using live
  have ring := pushed.ring p live'
  have head := pushed.head p live'
  rw [forkedKids, Function.update_of_ne ne, Function.update_self] at ring head
  obtain ⟨front, hf, back, isNew⟩ : ∃ front, (s.pushChild p addr).children p = some front ∧
      (s.pushChild p addr).links.previous front = addr ∧ (front = addr ↔ kids p = []) := by
    cases hk : kids p with
    | nil =>
        rw [hk] at ring head
        exact ⟨addr, head, ring.previous_head, by simp⟩
    | cons a l =>
        rw [hk] at ring head out
        rw [List.cons_append] at ring
        refine ⟨a, head, ?_, ?_⟩
        · rw [ring.previous_head]
          simp
        · simp only [reduceCtorEq, iff_false]
          rintro rfl
          exact out List.mem_cons_self
  refine ⟨front, hf, isNew, ?_⟩
  have live_eq : Function.update (s.pushChild p addr).live addr false = s.live := by
    simp only [Tree.pushChild, Function.update_idem]
    rw [← free, Function.update_eq_self]
  simp only [Tree.popChild, hf, back, live_eq]

/-- A fork that fails after the PCB was pushed takes it out again. -/
theorem Rep.unforked (h : Rep s kids init) (live : s.live p) {addr : Nat}
    (free : s.live addr = false) : Rep ((s.pushChild p addr).popChild p) kids init := by
  have dead : ∀ {q}, s.live q → q ≠ addr := by
    rintro q hq rfl
    rw [free] at hq
    cases hq
  have pushed := Lists.pushChild h live free
  have out : addr ∉ kids p := by
    intro mem
    exact dead (h.kid p addr live mem).1 rfl
  have stillLive : ∀ {q}, s.live q → (s.pushChild p addr).live q := by
    intro q hq
    simpa [Tree.pushChild, dead hq] using hq
  have here : forkedKids kids p addr p = kids p ++ [addr] := by
    rw [forkedKids, Function.update_of_ne (dead live), Function.update_self]
  have ring := pushed.ring p (stillLive live)
  have head := pushed.head p (stillLive live)
  rw [here] at ring head
  obtain ⟨front, hf, frontIs, popped⟩ := popChild_pushChild h live free
  have live_eq : ((s.pushChild p addr).popChild p).live = s.live := by rw [popped]
  have lists : Lists ((s.pushChild p addr).popChild p) kids := by
    refine ⟨fun q hq => ?_, fun q hq => ?_, fun q q' hq hq' => ?_⟩ <;> rw [live_eq] at hq
    · rw [popped]
      by_cases same : q = p
      · rw [same]
        have erased := ring.erase (x := addr) (by simp)
        rwa [List.erase_append_right _ out, List.erase_cons_head, List.append_nil] at erased
      · have there : forkedKids kids p addr q = kids q := by
          rw [forkedKids, Function.update_of_ne (dead hq), Function.update_of_ne same]
        have ringQ := pushed.ring q (stillLive hq)
        have apart := pushed.apart q p (stillLive hq) (stillLive live) same
        rw [there] at ringQ apart
        rw [here] at apart
        exact ringQ.of_unlink ring (by simp) apart
    · rw [popped]
      by_cases same : q = p
      · subst same
        by_cases empty : front = addr
        · simp only [if_pos empty, Function.update_self, frontIs.mp empty, List.head?_nil]
        · simp only [if_neg empty]
          rw [head]
          cases hk : kids q with
          | nil => exact absurd (frontIs.mpr hk) empty
          | cons a l => rfl
      · have old : (s.pushChild p addr).children q = s.children q := by
          simp [Tree.pushChild, dead hq, same]
        rw [← h.head q hq, ← old]
        dsimp only
        split
        · rw [Function.update_of_ne same]
        · rfl
    · rw [live_eq] at hq'
      exact h.apart q q' hq hq'
  have parent : ∀ {x}, s.live x → ((s.pushChild p addr).popChild p).parent x = s.parent x := by
    intro x hx
    rw [popped]
    simp [Tree.pushChild, dead hx]
  have root_eq : ((s.pushChild p addr).popChild p).root = s.root := by rw [popped]; rfl
  have serial_eq : ((s.pushChild p addr).popChild p).serial = s.serial := by rw [popped]; rfl
  have created_eq : ((s.pushChild p addr).popChild p).created = s.created := by rw [popped]; rfl
  generalize (s.pushChild p addr).popChild p = s' at *
  refine { lists with
    kid := fun q x hq hx => ?_
    owned := fun x hx ne => ?_
    root := by rw [live_eq, root_eq]; exact h.root
    orphan := by rw [root_eq, parent h.root, h.orphan]
    first := by rw [root_eq, h.first]
    serial_root := by rw [root_eq, serial_eq, h.serial_root]
    serial_init := by rw [serial_eq, h.serial_init]
    serial_lt := by rw [live_eq, serial_eq, created_eq]; exact h.serial_lt
    serial_inj := by rw [live_eq, serial_eq]; exact h.serial_inj
    older := fun x q hx hp => ?_ }
  · rw [live_eq] at hq ⊢
    obtain ⟨hl, hp⟩ := h.kid q x hq hx
    exact ⟨hl, (parent hl).trans hp⟩
  · rw [live_eq] at hx
    obtain ⟨q, hq, hp, mem⟩ := h.owned x hx (root_eq ▸ ne)
    exact ⟨q, by rw [live_eq]; exact hq, (parent hx).trans hp, mem⟩
  · rw [live_eq] at hx
    rw [parent hx] at hp
    rw [serial_eq]
    exact h.older x q hx hp

end OsKernel.Process
