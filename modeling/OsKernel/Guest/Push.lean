/-
What `push_val` does to the host.

`map_and_clear` gives pages to addresses that have none and leaves everything else as it
is (`Grows`), and it succeeds only for user pages. So a push places its bytes in user
memory, next to the bytes pushed before (`Pushed`).
-/

import OsKernel.Guest.Rules
import Mathlib.Algebra.Group.Nat.Defs
import Mathlib.Data.List.GetD

namespace OsKernel.Guest

open OsKernel.Vm Prog

/-! ### Bytes that are placed -/

section
variable (mem : Word → Byte) (v : Word) (front back : List Byte)

/-- Bytes placed after others. -/
theorem place_append (fits : front.length + back.length ≤ 2 ^ 32) :
    place (place mem v front) (v + .ofNat 32 front.length) back = place mem v (front ++ back) := by
  funext w
  simp only [place]
  have lt := (w - v).isLt
  by_cases first : (w - v).toNat < front.length
  · have wraps : back.length ≤ (w - (v + .ofNat 32 front.length)).toNat := by
      by_cases whole : front.length = 2 ^ 32
      · omega
      · bv_omega
    rw [List.getD_append _ _ _ _ first, List.getD_eq_default _ _ wraps]
  · have after : (w - (v + .ofNat 32 front.length)).toNat = (w - v).toNat - front.length := by
      bv_omega
    rw [List.getD_append_right _ _ _ _ (by omega), after,
      List.getD_eq_default front _ (Nat.le_of_not_lt first)]

/-- Bytes placed in front of others. -/
theorem place_prepend (fits : front.length + back.length ≤ 2 ^ 32) :
    place (place mem (v + .ofNat 32 front.length) back) v front = place mem v (front ++ back) := by
  funext w
  simp only [place]
  by_cases first : (w - v).toNat < front.length
  · rw [List.getD_append _ _ _ _ first, List.getD_eq_getElem _ _ first,
      List.getD_eq_getElem _ _ first]
  · have after : (w - (v + .ofNat 32 front.length)).toNat = (w - v).toNat - front.length := by
      have := (w - v).isLt
      bv_omega
    rw [List.getD_append_right _ _ _ _ (by omega), after, List.getD_eq_default _ _ (by omega)]

end

theorem place_other {mem : Word → Byte} {v w : Word} {bytes : List Byte}
    (out : bytes.length ≤ (w - v).toNat) : place mem v bytes w = mem w :=
  List.getD_eq_default _ _ out

theorem ofBytes_bytesOf (w : Word) : ofBytes (w.extractLsb' 0 8) (w.extractLsb' 8 8)
    (w.extractLsb' 16 8) (w.extractLsb' 24 8) = w := by
  refine BitVec.eq_of_getElem_eq fun i lt => ?_
  simp only [ofBytes]
  grind

/-- A word that has been placed is read back. -/
theorem wordAt_place (mem : Word → Byte) (v w : Word) : wordAt (place mem v (bytesOf w)) v = w := by
  have at0 : v - v = 0#32 := BitVec.sub_self v
  have at1 : v + 1 - v = 1#32 := by bv_omega
  have at2 : v + 2 - v = 2#32 := by bv_omega
  have at3 : v + 3 - v = 3#32 := by bv_omega
  simp only [wordAt, place, at0, at1, at2, at3]
  exact ofBytes_bytesOf w

theorem bytesOf_ofBytes (b₀ b₁ b₂ b₃ : Byte) : bytesOf (ofBytes b₀ b₁ b₂ b₃) = [b₀, b₁, b₂, b₃] := by
  simp only [bytesOf, ofBytes, List.cons.injEq, and_true]
  refine ⟨?_, ?_, ?_, ?_⟩ <;>
  · refine BitVec.eq_of_getElem_eq fun i lt => ?_
    grind

/-- Placing the word that is there changes nothing. -/
theorem place_wordAt (mem : Word → Byte) (v : Word) : place mem v (bytesOf (wordAt mem v)) = mem := by
  funext w
  rw [place, wordAt, bytesOf_ofBytes]
  have split : w = v ∨ w = v + 1 ∨ w = v + 2 ∨ w = v + 3 ∨ 4 ≤ (w - v).toNat := by bv_omega
  obtain rfl | rfl | rfl | rfl | out := split
  · rw [BitVec.sub_self]
    rfl
  · rw [show v + 1 - v = 1#32 by bv_omega]
    rfl
  · rw [show v + 2 - v = 2#32 by bv_omega]
    rfl
  · rw [show v + 3 - v = 3#32 by bv_omega]
    rfl
  · exact List.getD_eq_default _ _ out

theorem wordAt_congr {mem mem' : Word → Byte} {v : Word}
    (same : ∀ w : Word, (w - v).toNat < 4 → mem' w = mem w) : wordAt mem' v = wordAt mem v := by
  rw [wordAt, wordAt, same v (by bv_omega), same (v + 1) (by bv_omega), same (v + 2) (by bv_omega),
    same (v + 3) (by bv_omega)]

/-! ### Pages that are mapped on demand -/

/-- Only bytes that could not be accessed before have changed. -/
structure Grows (h h' : Host) : Prop where
  pcb : h'.pcb = h.pcb
  ureg : h'.ureg = h.ureg
  exited : h'.exited = h.exited
  keeps : ∀ v, h.present v = true → h'.present v = true ∧ h'.mem v = h.mem v

theorem Grows.refl (h : Host) : Grows h h := ⟨rfl, rfl, rfl, fun _ there => ⟨there, rfl⟩⟩

theorem Grows.trans {h h' h'' : Host} (first : Grows h h') (next : Grows h' h'') : Grows h h'' :=
  ⟨next.pcb.trans first.pcb, next.ureg.trans first.ureg, next.exited.trans first.exited,
    fun v there =>
      have ⟨there', same⟩ := first.keeps v there
      have ⟨there'', same'⟩ := next.keeps v there'
      ⟨there'', same'.trans same⟩⟩

/-- The byte is in user memory, and can be accessed. -/
def Host.Mapped (h : Host) (v : Word) : Prop := userPageStart ≤ v.toNat ∧ h.present v = true

theorem Grows.mapped {h h' : Host} (grows : Grows h h') {v : Word} (there : h.Mapped v) :
    h'.Mapped v := ⟨there.1, (grows.keeps v there.2).1⟩

/-- All bytes of a page are mapped with its first one. -/
theorem Host.Mapped.page {h : Host} {v w : Word} (there : h.Mapped v)
    (same : w.toNat / pageSize = v.toNat / pageSize) : h.Mapped w := by
  obtain ⟨user, there⟩ := there
  have user' : userPageStart ≤ w.toNat := by
    simp only [userPageStart, userMemStart, pageSize] at *
    omega
  refine ⟨user', ?_⟩
  rw [Host.present] at there ⊢
  rw [same]
  have high : ¬ v.toNat < userMemStart := by
    simp only [userPageStart, userMemStart, pageSize] at *
    omega
  rw [decide_eq_false high, Bool.false_or] at there
  rw [there, Bool.or_true]

theorem grows_mapNew {h : Host} {p : Nat} (absent : (h.page p).present = false)
    (user : userPageStart ≤ p * pageSize) : Grows h (h.mapNew p) := by
  refine ⟨rfl, rfl, rfl, fun v there => ?_⟩
  have other : v.toNat / pageSize ≠ p := by
    rintro rfl
    rw [Host.present, absent, Bool.or_false, decide_eq_true_eq] at there
    simp only [userPageStart, userMemStart, pageSize] at *
    omega
  constructor
  · rw [Host.present, Host.mapNew]
    dsimp only
    rw [Function.update_of_ne other]
    exact there
  · rw [Host.mapNew]
    dsimp only
    rw [if_neg other]

/-- One page of `map_and_clear`. -/
theorem Host.mapAndClear_spec (h : Host) (v : Word) : Grows h (h.mapAndClear v).1 ∧
    ((h.mapAndClear v).2 = true → (h.mapAndClear v).1.Mapped v) := by
  unfold Host.mapAndClear
  split
  · exact ⟨Grows.refl h, fun no => by cases no⟩
  rename_i user
  cases page : h.page (v.toNat / pageSize) with
  | mapped access us =>
      refine ⟨Grows.refl h, fun _ => ⟨Nat.le_of_not_lt user, ?_⟩⟩
      rw [Host.present, page]
      exact Bool.or_true _
  | unmapped available =>
      cases available with
      | false => exact ⟨Grows.refl h, fun no => by cases no⟩
      | true =>
          dsimp only
          split
          swap
          · exact ⟨Grows.refl h, fun no => by cases no⟩
          refine ⟨grows_mapNew (by rw [page]; rfl) ?_, fun _ => ⟨Nat.le_of_not_lt user, ?_⟩⟩
          · simp only [userPageStart, userMemStart, pageSize] at *
            omega
          · rw [Host.present, Host.mapNew]
            dsimp only
            rw [Function.update_self]
            exact Bool.or_true _

/-- A condition on actions that admits the actions of `push_val`. -/
structure Pushes (ok : Act → Host → Prop) : Prop where
  map : ∀ v h, ok (.mapAndClear v) h
  store : ∀ v b h, userPageStart ≤ v.toNat → ok (.store v b) h

section
variable {ok : Act → Host → Prop}

theorem does_mapAndClear_pages (pushes : Pushes ok) (h : Host) (vs : List Nat) :
    Does exec Host.alive ok (· = h) (forAll (fun v => act (.mapAndClear (.ofNat 32 v))) vs)
      fun r h' => Grows h h' ∧ (r = true → ∀ v ∈ vs, h'.Mapped (.ofNat 32 v)) := by
  induction vs generalizing h with
  | nil =>
      refine .ret fun h' same => ?_
      rw [same]
      exact ⟨Grows.refl h, fun _ v mem => nomatch mem⟩
  | cons v vs ih =>
      have one := h.mapAndClear_spec (.ofNat 32 v)
      refine .bind (Q := fun r h' => h' = (h.mapAndClear (.ofNat 32 v)).1 ∧
        r = (h.mapAndClear (.ofNat 32 v)).2) (.perform (fun _ _ => pushes.map _ _) ?_) fun r => ?_
      · rintro h' rfl -
        exact ⟨rfl, rfl⟩
      refine .given fun result => ?_
      rw [← result] at one
      cases r with
      | false =>
          refine .ret fun h' same => ?_
          rw [same]
          exact ⟨one.1, fun no => nomatch no⟩
      | true =>
          refine (ih _).conseq (fun _ same => same) fun r h' ⟨grows, mapped⟩ => ?_
          refine ⟨one.1.trans grows, fun done w mem => ?_⟩
          rcases List.mem_cons.mp mem with rfl | mem
          · exact grows.mapped (one.2 rfl)
          · exact mapped done w mem

end

/-! ### Ranges -/

theorem mem_pagesOf {addr size v : Nat} (some : 0 < size) (low : addr / pageSize * pageSize ≤ v)
    (high : v < addr + size) (start : v % pageSize = 0) : v ∈ Memory.pagesOf addr size := by
  unfold pageSize at low start
  rw [Memory.pagesOf, if_neg (by omega)]
  simp only [pageSize]
  refine List.mem_map.mpr ⟨(v - addr / 4096 * 4096) / 4096, List.mem_range.mpr ?_, ?_⟩
  all_goals omega

/-- The bytes from `v` on lie in user memory, can be accessed and do not wrap. -/
def Host.MappedRange (h : Host) (v : Word) (n : Nat) : Prop :=
  v.toNat + n ≤ 2 ^ 32 ∧ ∀ w : Word, (w - v).toNat < n → h.Mapped w

theorem mappedRange_of_pages {h : Host} {v : Word} {n : Nat} (small : n < 2 ^ 32)
    (pages : ∀ p ∈ Memory.pagesOf v.toNat n, h.Mapped (.ofNat 32 p)) : h.MappedRange v n := by
  have page : ∀ k < n, h.Mapped (.ofNat 32 ((v.toNat + k) / pageSize * pageSize)) := by
    intro k lt
    refine pages _ (mem_pagesOf (by omega) ?_ ?_ ?_) <;> simp only [pageSize] <;> omega
  have fits : v.toNat + n ≤ 2 ^ 32 := by
    by_contra wraps
    -- the page after the last one of the address space is page 0
    obtain ⟨user, -⟩ := page (2 ^ 32 - v.toNat) (by omega)
    have top : (v.toNat + (2 ^ 32 - v.toNat)) / pageSize * pageSize = 2 ^ 32 := by
      simp only [pageSize]
      omega
    rw [top] at user
    exact absurd user (by decide)
  refine ⟨fits, fun w inside => ?_⟩
  refine (page _ inside).page ?_
  have sum : v.toNat + (w - v).toNat = w.toNat := by bv_omega
  have lt := w.isLt
  rw [sum, BitVec.toNat_ofNat, Nat.mod_eq_of_lt]
  all_goals simp only [pageSize]
  all_goals omega

theorem Host.MappedRange.left {h : Host} {v : Word} {n m : Nat} (range : h.MappedRange v (n + m)) :
    h.MappedRange v n := ⟨by have := range.1; omega, fun w inside => range.2 w (by omega)⟩

theorem Host.MappedRange.right {h : Host} {v : Word} {n m : Nat} (range : h.MappedRange v (n + m))
    (small : n < 2 ^ 32) : h.MappedRange (v + .ofNat 32 n) m := by
  obtain ⟨fits, mapped⟩ := range
  by_cases last : m = 0
  · exact ⟨by rw [last]; have := (v + .ofNat 32 n).isLt; omega, fun w inside => by omega⟩
  · refine ⟨by bv_omega, fun w inside => mapped w (by bv_omega)⟩

section
variable {ok : Act → Host → Prop}

/-- Bytes stored one after another in memory that can be accessed. -/
theorem does_storeBytes (pushes : Pushes ok) (h : Host) (v : Word) (bytes : List Byte)
    (range : h.MappedRange v bytes.length) :
    Does exec Host.alive ok (· = h) (storeBytes v bytes) fun _ h' => h' = h.put v bytes := by
  induction bytes generalizing h v with
  | nil =>
      refine .ret fun h' same => ?_
      rw [same]
      rfl
  | cons b bs ih =>
      rw [List.length_cons, Nat.add_comm] at range
      have rest : h.MappedRange (v + 1) bs.length := range.right (by omega)
      have first := range.2 v (by rw [BitVec.sub_self]; exact Nat.add_pos_left Nat.one_pos _)
      refine .bind (Q := fun _ h' => h' = h.put v [b]) (.perform (fun _ _ => pushes.store _ _ _ first.1)
        ?_) fun _ => ?_
      · rintro h' rfl -
        simp only [exec, first.2, if_true]
      · refine (ih (h.put v [b]) _ rest).conseq (fun _ same => same) fun _ h' same => ?_
        rw [same]
        simp only [Host.put]
        congr 1
        exact place_append h.mem v [b] bs (by have := range.1; rw [List.length_singleton]; omega)

/-- Where `push_val` puts a value of this length. -/
def pushAddr (esp : Word) (len : Nat) : Word := (esp - .ofNat 32 len) / 4 * 4

/-- What `push_val` pushes: the value, and zeros up to the old stack pointer. -/
def padded (esp : Word) (val : List Byte) : List Byte :=
  val ++ List.replicate (esp - pushAddr esp val.length - .ofNat 32 val.length).toNat 0

theorem toNat_align (v : Word) : (v / 4 * 4).toNat = v.toNat / 4 * 4 := by
  have small : v.toNat / 4 * 4 < 2 ^ 32 := by
    have := v.isLt
    omega
  rw [BitVec.toNat_mul, BitVec.toNat_udiv]
  exact Nat.mod_eq_of_lt small

theorem toNat_padding (esp : Word) (len : Nat) :
    (esp - pushAddr esp len - .ofNat 32 len).toNat = (esp - .ofNat 32 len).toNat % 4 := by
  have align := toNat_align (esp - .ofNat 32 len)
  rw [← pushAddr] at align
  have swap : esp - pushAddr esp len - .ofNat 32 len = esp - .ofNat 32 len - pushAddr esp len := by
    bv_omega
  rw [swap]
  generalize esp - .ofNat 32 len = v at align ⊢
  bv_omega

theorem length_padded {esp : Word} {val : List Byte} (small : val.length + 3 < 2 ^ 32) :
    (padded esp val).length = (esp - pushAddr esp val.length).toNat := by
  have padding := toNat_padding esp val.length
  rw [padded, List.length_append, List.length_replicate]
  have : (esp - pushAddr esp val.length - .ofNat 32 val.length).toNat ≤ 3 := by omega
  generalize esp - pushAddr esp val.length = gap at this ⊢
  bv_omega

/-- A push that succeeds has placed its bytes below the old stack pointer, in user memory. -/
theorem does_pushVal (pushes : Pushes ok) (h : Host) (esp : Word) {val : List Byte}
    (filled : val ≠ []) (small : val.length + 3 < 2 ^ 32) :
    Does exec Host.alive ok (· = h) (pushVal esp val) fun r h' => match r with
      | some e => e = pushAddr esp val.length ∧ ∃ h₁, Grows h h₁ ∧
          h₁.MappedRange e (padded esp val).length ∧ h' = h₁.put e (padded esp val)
      | none => Grows h h' := by
  have length : (padded esp val).length = (esp - pushAddr esp val.length).toNat := length_padded small
  rw [pushVal, if_neg filled]
  refine .bind (does_mapAndClear_pages pushes h _) fun r => ?_
  cases r with
  | false => exact .ret fun h' post => post.1
  | true =>
      refine .each fun h₁ ⟨grows, mapped⟩ => ?_
      have range := mappedRange_of_pages (esp - pushAddr esp val.length).isLt (mapped rfl)
      rw [← length] at range
      have parts := range
      rw [padded, List.length_append] at parts
      refine .bind (does_storeBytes pushes h₁ _ val parts.left) fun _ => .each fun h₂ placed => ?_
      subst placed
      refine .bind (does_storeBytes pushes _ _ _ (parts.right (by omega))) fun _ =>
        .ret fun h₃ placed => ⟨rfl, h₁, grows, range, ?_⟩
      rw [placed]
      simp only [Host.put]
      congr 1
      exact place_append _ _ _ _ (Nat.le_trans (Nat.le_add_left _ _) parts.1)

/-! ### Interrupts -/

theorem length_bytesOf (w : Word) : (bytesOf w).length = 4 := rfl

theorem stays_pushWords (pushes : Pushes ok) (esp : Word) (ws : List Word) :
    Stays ok (pushWords esp ws) := by
  induction ws generalizing esp with
  | nil => exact stays_ret _
  | cons w ws ih =>
      refine .bind (Q := fun _ _ => True) ?_ fun r => ?_
      · refine .each fun h _ => ?_
        exact (does_pushVal pushes h esp (by simp [bytesOf]) (by simp [bytesOf])).conseq
          (fun _ same => same) fun _ _ _ => trivial
      · cases r with
        | some esp => exact ih esp
        | none => exact stays_ret _

variable {u : Ureg} {key : Word}

theorem stays_pushMode (pushes : Pushes ok) (esp0 : ∀ h, ok .esp0 h) (eflags : Word) :
    Stays ok (pushMode u eflags) := by
  unfold pushMode
  split
  · exact .bind (stays_act esp0) fun _ => stays_pushWords pushes _ _
  · exact stays_pushWords pushes _ _

theorem stays_deliver (pushes : Pushes ok)
    (other : ∀ a h, Confined a h → a.setsResource = false → ok a h)
    (suspend : ∀ h, ok (.setFlag false) h) (vector : u.cause.toNat < virtualIdtLen) :
    Stays ok (deliver u key) := by
  have crash : Stays ok (do crashGuest; pure Outcome.crashed) :=
    .bind (stays_act fun h => other _ h trivial rfl) fun _ => stays_ret _
  refine .bind (stays_act fun h => other _ h trivial rfl) fun flag =>
    .bind (stays_act suspend) fun _ =>
      .bind (stays_pushMode pushes (fun h => other _ h trivial rfl) _) fun esp => ?_
  cases esp with
  | none => exact crash
  | some esp =>
      refine .bind (stays_pushWords pushes _ _) fun esp => ?_
      cases esp with
      | none => exact crash
      | some esp =>
          exact .bind (stays_act fun h => other _ h trivial rfl) fun _ =>
            .bind (stays_act fun h => other _ h vector rfl) fun _ =>
              .bind (stays_act fun h => other _ h trivial rfl) fun _ => stays_ret _

/-- An interrupt, given what holds of the handler if it is a hypervisor call. -/
theorem stays_interrupt (pushes : Pushes ok)
    (other : ∀ a h, Confined a h → a.setsResource = false → ok a h)
    (suspend : ∀ h, ok (.setFlag false) h)
    (call : u.cause = hvInt → ∀ handler, hvcallHandlerArray u.eax.toNat = some handler →
      Stays ok (handler u)) : Stays ok (handleVirtualInterrupt u key) := by
  have crash : Stays ok (do crashGuest; pure Outcome.crashed) :=
    .bind (stays_act fun h => other _ h trivial rfl) fun _ => stays_ret _
  have find : Stays ok (findHandler u key) := by
    unfold findHandler
    split
    · rename_i vector
      refine .bind (stays_act fun h => other _ h vector rfl) fun eip => ?_
      split
      · exact stays_deliver pushes other suspend vector
      · exact crash
    · exact crash
  unfold handleVirtualInterrupt
  split
  · rename_i handler found
    split at found
    · rename_i isCall
      exact .bind (call isCall handler found) fun _ => stays_ret _
    · cases found
  · split
    · refine .bind (stays_act fun h => other _ h trivial rfl) fun flag => ?_
      split
      · exact find
      · exact stays_ret _
    · exact find

end

end OsKernel.Guest
