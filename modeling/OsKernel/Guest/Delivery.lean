/-
The delivery of a virtual interrupt and `hv_iret`.

The frame of an interrupt lies right below the stack pointer of the guest: five words,
with the flag of virtual interrupts in the place of `EFL_IF`. `Pushed` describes the
host while they are pushed. `hv_iret` takes the words back, so that nothing is lost
between the two; and from the delivery on virtual interrupts stay suspended until the
guest asks for them.
-/

import OsKernel.Guest.VirtualIdt

namespace OsKernel.Guest

open OsKernel.Vm Prog Run
open OsKernel.Privilege (checkEflags eflIf ioplMask)

/-! ### The frame -/

/-- The host after a frame has been pushed that starts at `e`. -/
structure Pushed (h : Host) (e : Word) (frame : List Byte) (h' : Host) : Prop where
  pcb : h'.pcb = h.pcb
  ureg : h'.ureg = h.ureg
  keeps : ∀ v, h.present v = true → h'.present v = true
  mapped : ∀ v : Word, (v - e).toNat < frame.length → h'.Mapped v
  mem : ∀ v, h.present v = true ∨ (v - e).toNat < frame.length → h'.mem v = place h.mem e frame v

theorem Pushed.start (h : Host) (top : Word) : Pushed h top [] h :=
  ⟨rfl, rfl, fun _ there => there, fun _ inside => absurd inside (Nat.not_lt_zero _), fun _ _ => rfl⟩

/-- One more row of bytes, on pages that may have been mapped for it. -/
theorem Pushed.push {h h₁ h₂ : Host} {e : Word} {frame bytes : List Byte}
    (pushed : Pushed h (e + .ofNat 32 bytes.length) frame h₁) (grows : Grows h₁ h₂)
    (fits : bytes.length + frame.length < 2 ^ 32) (range : h₂.MappedRange e bytes.length) :
    Pushed h e (bytes ++ frame) (h₂.put e bytes) := by
  have length : (bytes ++ frame).length = bytes.length + frame.length := List.length_append
  refine ⟨grows.pcb.trans pushed.pcb, grows.ureg.trans pushed.ureg,
    fun v there => (grows.keeps v (pushed.keeps v there)).1, fun v inside => ?_, fun v known => ?_⟩
  · by_cases new : (v - e).toNat < bytes.length
    · exact range.2 v new
    · exact grows.mapped (pushed.mapped v (by bv_omega))
  · by_cases new : (v - e).toNat < bytes.length
    · simp only [Host.put, place]
      rw [List.getD_append _ _ _ _ new, List.getD_eq_getElem _ _ new, List.getD_eq_getElem _ _ new]
    · have old : h.present v = true ∨ (v - (e + .ofNat 32 bytes.length)).toNat < frame.length :=
        known.imp id fun inside => by bv_omega
      have there : h₁.present v = true := old.elim (pushed.keeps v) fun inside => (pushed.mapped v inside).2
      rw [← place_prepend _ _ _ _ (by omega), Host.put]
      dsimp only
      rw [place_other (Nat.le_of_not_lt new), place_other (Nat.le_of_not_lt new),
        (grows.keeps v there).2, pushed.mem v old]

section
variable {ok : Act → Host → Prop}

theorem pushAddr_aligned {esp : Word} (aligned : esp.toNat % 4 = 0) : pushAddr esp 4 = esp - 4 := by
  have align := toNat_align (esp - 4)
  rw [pushAddr]
  refine BitVec.eq_of_toNat_eq ?_
  rw [show (.ofNat 32 4 : Word) = 4 from rfl, align]
  bv_omega

theorem padded_aligned {esp : Word} (aligned : esp.toNat % 4 = 0) (w : Word) :
    padded esp (bytesOf w) = bytesOf w := by
  have none := toNat_padding esp 4
  rw [padded, length_bytesOf, none]
  have : (esp - .ofNat 32 4).toNat % 4 = 0 := by bv_omega
  rw [this]
  exact List.append_nil _

/-- The bytes of a frame after more words have been pushed. -/
def frameOf (frame : List Byte) (ws : List Word) : List Byte :=
  ws.foldl (fun frame w => bytesOf w ++ frame) frame

theorem does_pushWords (pushes : Pushes ok) (h : Host) {esp : Word} (aligned : esp.toNat % 4 = 0)
    (ws : List Word) (frame : List Byte) (fits : frame.length + 4 * ws.length < 2 ^ 32) :
    Does exec Host.alive ok (Pushed h esp frame) (pushWords esp ws) fun r h' => ∀ e, r = some e →
      e = esp - .ofNat 32 (4 * ws.length) ∧ Pushed h e (frameOf frame ws) h' := by
  induction ws generalizing esp frame with
  | nil =>
      refine .ret fun h' pushed e same => ?_
      cases same
      exact ⟨(BitVec.sub_zero esp).symm, pushed⟩
  | cons w ws ih =>
      rw [List.length_cons] at fits ⊢
      refine .each fun h₁ pushed => ?_
      refine .bind (does_pushVal pushes h₁ esp (by simp [bytesOf]) (by simp [bytesOf])) fun r => ?_
      cases r with
      | none => exact .ret fun _ _ _ no => by cases no
      | some e =>
          refine .each fun h₂ made => ?_
          obtain ⟨addr, h₁', grows, range, placed⟩ := made
          rw [length_bytesOf, pushAddr_aligned aligned] at addr
          rw [padded_aligned aligned] at range placed
          have top : esp = e + .ofNat 32 (bytesOf w).length := by
            rw [addr, length_bytesOf]
            bv_omega
          rw [top] at pushed
          have next := pushed.push grows (by rw [length_bytesOf]; omega) range
          rw [← placed] at next
          refine (ih ?_ (bytesOf w ++ frame) ?_).conseq ?_ fun r h' post e' is => ?_
          · rw [addr]
            bv_omega
          · rw [List.length_append, length_bytesOf]
            omega
          · rintro h' rfl
            exact next
          · obtain ⟨is, pushed⟩ := post e' is
            refine ⟨?_, pushed⟩
            rw [is, addr]
            bv_omega

end

/-! ### The delivery -/

/-- `interrupt_enable_flag` -/
def Host.flag (h : Host) : Bool := h.mem (h.pcb + flagOffset) != 0

/-- The flags in the frame, with the flag of virtual interrupts in the place of `EFL_IF`. -/
def savedEflags (h : Host) (u : Ureg) : Word :=
  if h.flag then u.eflags ||| eflIf else u.eflags &&& ~~~eflIf

/-- The host after an interrupt has been delivered to the kernel of a guest: what the
frame holds, and what is left alone. -/
structure Delivered (h : Host) (u : Ureg) (h' : Host) : Prop where
  pcb : h'.pcb = h.pcb
  esp : h'.ureg.esp = u.esp - 20
  eip : wordAt h'.mem (h'.ureg.esp + base + 8) = u.eip
  eflags : wordAt h'.mem (h'.ureg.esp + base + 16) = savedEflags h u
  above : ∀ v, InGuest v → u.esp.toNat ≤ (v - base).toNat → h'.mem v = h.mem v

/-- A word in the middle of bytes that are placed. -/
theorem wordAt_middle (mem : Word → Byte) (v w : Word) (front back : List Byte)
    (fits : front.length + 4 + back.length ≤ 2 ^ 32) :
    wordAt (place mem v (front ++ (bytesOf w ++ back))) (v + .ofNat 32 front.length) = w := by
  have length : (bytesOf w ++ back).length = 4 + back.length := List.length_append
  rw [← place_append _ _ _ _ (by omega),
    ← place_prepend _ _ (bytesOf w) back (by rw [length_bytesOf]; omega)]
  exact wordAt_place _ _ _

theorem Pushed.wordAt_middle {h h' : Host} {e w : Word} (front back : List Byte)
    (pushed : Pushed h e (front ++ (bytesOf w ++ back)) h')
    (fits : front.length + 4 + back.length < 2 ^ 32) :
    wordAt h'.mem (e + .ofNat 32 front.length) = w := by
  have length : (front ++ (bytesOf w ++ back)).length = front.length + (4 + back.length) := by
    rw [List.length_append, List.length_append, length_bytesOf]
  rw [← Guest.wordAt_middle h.mem e w front back (Nat.le_of_lt fits)]
  refine wordAt_congr fun v inside => pushed.mem v (.inr ?_)
  rw [length]
  bv_omega

theorem pushes_any : Pushes fun _ _ => True := ⟨fun _ _ => trivial, fun _ _ _ _ => trivial⟩

variable {h h' : Host} {u : Ureg} {key : Word}

theorem eval_flag (alive : h.alive = true) :
    (act .flag).eval exec Host.alive h = (h, some h.flag) := by
  rw [eval_perform]
  exact if_pos alive

theorem eval_handler (alive : h.alive = true) (i : Word) :
    (act (.handler i)).eval exec Host.alive h = (h, some (h.idt i)) := by
  rw [eval_perform]
  exact if_pos alive

/-- An interrupt that is delivered. -/
theorem interrupt_delivered (delivered : (h.interrupt u key).2 = some .delivered) :
    h.interrupt u key = (deliver u key).eval exec Host.alive (h.trap u) := by
  have running := alive_trap h u
  have crash : (do crashGuest; pure Outcome.crashed : Program Outcome).eval exec Host.alive (h.trap u) =
      ((h.trap u).vanish Host.guestCrashStatus, none) := rfl
  have find : ((findHandler u key).eval exec Host.alive (h.trap u)).2 = some .delivered →
      (findHandler u key).eval exec Host.alive (h.trap u) =
        (deliver u key).eval exec Host.alive (h.trap u) := by
    unfold findHandler
    split
    · rw [eval_bind_some (eval_handler running u.cause)]
      split
      · exact fun _ => rfl
      · rw [crash]
        exact fun no => nomatch no
    · rw [crash]
      exact fun no => nomatch no
  rw [Host.interrupt] at delivered ⊢
  unfold handleVirtualInterrupt at delivered ⊢
  split at delivered
  · rename_i handler found
    rcases ran : (handler u).eval exec Host.alive (h.trap u) with ⟨h', _ | x⟩
    · rw [eval_bind_none ran] at delivered
      cases delivered
    · rw [eval_bind_some ran] at delivered
      cases delivered
  · split at delivered
    · rename_i soft
      rw [if_pos soft]
      rw [eval_bind_some (eval_flag running)] at delivered ⊢
      split at delivered
      · rename_i enabled
        rw [if_pos enabled]
        exact find delivered
      · cases delivered
    · rename_i hard
      rw [if_neg hard]
      exact find delivered

theorem does_crashed {ok : Act → Host → Prop} {P Q : Host → Prop}
    (allowed : ∀ status h, ok (.vanish status) h) :
    Does exec Host.alive ok P (do crashGuest; pure .crashed) fun r h' =>
      r = Outcome.delivered → Q h' :=
  .bind (Q := fun _ _ => True) (.perform (fun _ _ => allowed _ _) fun _ _ _ => trivial) fun _ =>
    .ret fun _ _ no => nomatch no

/-- The words of a frame, from the one that is pushed first. -/
def frameWords (h : Host) (u : Ureg) (key : Word) : List Word :=
  [savedEflags h u, guestInterruptKmode, u.eip, errCode u key, faultingAddr u]

/-- The host with virtual interrupts disabled. -/
def Host.suspend (h : Host) : Host := h.put (h.pcb + flagOffset) [0]

theorem mem_suspend_guest {v : Word} (inside : InGuest v) : h.suspend.mem v = h.mem v := by
  have placed := h.placed
  have user := inside.1
  refine place_other ?_
  simp only [pcbSize, virtualIdtLen, userMemStart, flagOffset, List.length_singleton] at *
  bv_omega

/-- What the frame says to the handler. -/
theorem Pushed.delivered {e : Word} {r : Ureg} (addr : e = u.esp + base - 20)
    (pushed : Pushed (h.trap u).suspend e (frameOf [] (frameWords h u key)) h')
    (esp : r.esp = e - base) :
    Delivered h u { h'.alterPageDir true with ureg := r } := by
  have eip := Pushed.wordAt_middle (w := u.eip) (bytesOf (faultingAddr u) ++ bytesOf (errCode u key))
    (bytesOf guestInterruptKmode ++ bytesOf (savedEflags h u)) pushed (by simp [length_bytesOf])
  have eflags := Pushed.wordAt_middle (w := savedEflags h u) (bytesOf (faultingAddr u) ++
    (bytesOf (errCode u key) ++ (bytesOf u.eip ++ bytesOf guestInterruptKmode))) [] pushed
    (by simp [length_bytesOf])
  have back : r.esp + base = e := by rw [esp, BitVec.sub_add_cancel]
  refine ⟨pushed.pcb, ?_, ?_, ?_, fun v inside above => ?_⟩
  · rw [esp, addr]
    bv_omega
  · rw [back]
    exact eip
  · rw [back]
    exact eflags
  · have apart : (frameOf [] (frameWords h u key)).length ≤ (v - e).toNat := by
      have length : (frameOf [] (frameWords h u key)).length = 20 := rfl
      rw [length, addr]
      simp only [InGuest, base, userMemStart, guestMemSize] at inside above ⊢
      bv_omega
    have guest := Host.present_guest (h.trap u).suspend inside
    exact (pushed.mem v (.inl guest)).trans ((place_other apart).trans (mem_suspend_guest inside))

/-- The frame of an interrupt in the kernel of a guest. -/
theorem does_deliver (kernel : u.cs = guestKernelCs) (aligned : u.esp.toNat % 4 = 0) :
    Does exec Host.alive (fun _ _ => True) (· = h.trap u) (deliver u key) fun r h' =>
      r = .delivered → Delivered h u h' := by
  have top : (u.esp + base).toNat % 4 = 0 := by
    simp only [base, userMemStart]
    bv_omega
  refine .bind (Q := fun r h' => h' = h.trap u ∧ r = h.flag) (.perform (fun _ _ => trivial) ?_) fun r => ?_
  · rintro h' rfl -
    exact ⟨rfl, rfl⟩
  refine .given fun flag => ?_
  have saved : (if r = true then u.eflags ||| eflIf else u.eflags &&& ~~~eflIf) = savedEflags h u := by
    rw [flag, savedEflags]
  rw [saved]
  refine .bind (Q := fun _ h' => h' = (h.trap u).suspend) (.perform (fun _ _ => trivial) ?_) fun _ => ?_
  · rintro h' rfl -
    rfl
  rw [pushMode, if_neg (not_not.mpr kernel)]
  refine .bind ((does_pushWords pushes_any (h.trap u).suspend top [savedEflags h u, guestInterruptKmode] []
    (by simp)).conseq ?_ fun _ _ post => post) fun r => ?_
  · rintro h' rfl
    exact .start _ _
  cases r with
  | none => exact does_crashed fun _ _ => trivial
  | some e₁ =>
      refine .each fun h₁ post => ?_
      obtain ⟨at₁, pushed₁⟩ := post e₁ rfl
      have aligned₁ : e₁.toNat % 4 = 0 := by
        rw [at₁]
        simp only [List.length_cons, List.length_nil]
        bv_omega
      refine .bind ((does_pushWords pushes_any (h.trap u).suspend aligned₁ [u.eip, errCode u key, faultingAddr u]
        (frameOf [] [savedEflags h u, guestInterruptKmode])
        (by simp [frameOf, length_bytesOf])).conseq ?_ fun _ _ post => post) fun r => ?_
      · rintro h' rfl
        exact pushed₁
      cases r with
      | none => exact does_crashed fun _ _ => trivial
      | some e₂ =>
          refine .each fun h₂ post => ?_
          obtain ⟨at₂, pushed₂⟩ := post e₂ rfl
          refine .bind (Q := fun _ h' => h' = h₂.alterPageDir true) (.perform (fun _ _ => trivial) ?_)
            fun _ => ?_
          · rintro h' rfl -
            rfl
          refine .bind (Q := fun _ h' => h' = h₂.alterPageDir true) (.perform (fun _ _ => trivial) ?_)
            fun eip => ?_
          · rintro h' rfl -
            rfl
          have addr : e₂ = u.esp + base - 20 := by
            rw [at₂, at₁]
            simp only [List.length_cons, List.length_nil]
            bv_omega
          have frame : Pushed (h.trap u).suspend e₂ (frameOf [] (frameWords h u key)) h₂ := pushed₂
          refine .bind (Q := fun _ h' => Delivered h u h') (.perform (fun _ _ => trivial) ?_)
            fun _ => .ret fun _ post _ => post
          rintro h' rfl -
          exact frame.delivered addr rfl

/-! ### The return -/

/-- The registers make the hypervisor call of this number, with these argument words. -/
def Host.Calls (h : Host) (u : Ureg) (number : Word) (args : List Word) : Prop :=
  u.cause = hvInt ∧ u.eax = number ∧ ∀ i < args.length,
    h.presentWord (argAddr u i) = true ∧ wordAt h.mem (argAddr u i) = args.getD i 0

/-- The host after an `hv_iret` that is accepted. -/
def Host.iret (h : Host) (u : Ureg) (eip eflags esp eax : Word) : Host :=
  { (h.trap u).put (h.pcb + flagOffset) [if eflags &&& eflIf != 0 then 1 else 0] with
    ureg := { u with eip := eip, eflags := eflags ||| eflIf, esp := esp, eax := eax } }

theorem interrupt_iret {eip eflags esp eax : Word} (calls : h.Calls u 0x02 [eip, eflags, esp, 0, eax])
    (accepted : checkEflags u.eflags eflags = true) :
    h.interrupt u key = (h.iret u eip eflags esp eax, some .hypercall) := by
  obtain ⟨call, number, args⟩ := calls
  have word : ∀ i < 5, (arg u i).eval exec Host.alive (h.trap u) =
      (h.trap u, some ([eip, eflags, esp, 0, eax].getD i 0)) := by
    intro i lt
    obtain ⟨there, value⟩ := args i lt
    rw [eval_arg there, value]
  have handler : handleVirtualInterrupt u key =
      (handleHvIret u >>= fun _ => pure Outcome.hypercall) := by
    rw [handleVirtualInterrupt, if_pos call, number]
    rfl
  have iret : (handleHvIret u).eval exec Host.alive (h.trap u) =
      (h.iret u eip eflags esp eax, some ()) := by
    rw [handleHvIret, eval_bind_some (word 0 (by decide)), eval_bind_some (word 1 (by decide)),
      eval_bind_some (word 2 (by decide)), eval_bind_some (word 3 (by decide)),
      eval_bind_some (word 4 (by decide))]
    rw [if_neg]
    · rfl
    · rintro (nonzero | refused)
      · exact nonzero rfl
      · rw [List.getD_cons_succ, List.getD_cons_zero, accepted] at refused
        cases refused
  rw [Host.interrupt, handler, eval_bind_some iret]
  rfl

theorem flag_iret (h : Host) (u : Ureg) (eip eflags esp eax : Word) :
    (h.iret u eip eflags esp eax).flag = (eflags &&& eflIf != 0) := by
  have byte : (h.iret u eip eflags esp eax).mem (h.pcb + flagOffset) =
      if eflags &&& eflIf != 0 then 1 else 0 := by
    simp only [Host.iret, Host.put, place, Host.trap, BitVec.sub_self]
    rfl
  have pcb : (h.iret u eip eflags esp eax).pcb = h.pcb := rfl
  rw [Host.flag, pcb, byte]
  cases eflags &&& eflIf != 0 <;> rfl

theorem mem_iret_guest (u : Ureg) (eip eflags esp eax : Word) {v : Word} (inside : InGuest v) :
    (h.iret u eip eflags esp eax).mem v = h.mem v := by
  have placed := h.placed
  have user := inside.1
  refine place_other ?_
  simp only [pcbSize, virtualIdtLen, userMemStart, flagOffset, List.length_singleton] at *
  bv_omega

theorem eflIf_eq : eflIf = BitVec.twoPow 32 9 := by decide

theorem or_eflIf {w : Word} (set : w &&& eflIf ≠ 0) : w ||| eflIf = w := by
  rw [eflIf_eq, BitVec.and_twoPow] at set
  have bit : w.getLsbD 9 = true := by
    by_contra clear
    rw [if_neg clear] at set
    exact set rfl
  rw [eflIf_eq]
  refine BitVec.eq_of_getLsbD_eq fun i _ => ?_
  rw [BitVec.getLsbD_or, BitVec.getLsbD_twoPow]
  by_cases nine : 9 = i
  · subst nine
    simp [bit]
  · simp [nine]

theorem clear_or_eflIf {w : Word} (set : w &&& eflIf ≠ 0) : w &&& ~~~eflIf ||| eflIf = w := by
  conv_rhs => rw [← or_eflIf set]
  refine BitVec.eq_of_getLsbD_eq fun i lt => ?_
  simp only [BitVec.getLsbD_or, BitVec.getLsbD_and, BitVec.getLsbD_not, lt, decide_true, Bool.true_and]
  grind

/-- The flags come back from the frame, with the one of virtual interrupts. -/
theorem savedEflags_back (hardware : u.eflags &&& eflIf ≠ 0) :
    savedEflags h u ||| eflIf = u.eflags ∧ (savedEflags h u &&& eflIf != 0) = h.flag ∧
      savedEflags h u &&& ioplMask = u.eflags &&& ioplMask := by
  rw [savedEflags]
  cases h.flag with
  | true =>
      rw [if_pos rfl, or_eflIf hardware]
      exact ⟨or_eflIf hardware, bne_iff_ne.mpr hardware, rfl⟩
  | false =>
      have off : ~~~eflIf &&& eflIf = 0#32 := by decide
      have iopl : ~~~eflIf &&& ioplMask = ioplMask := by decide
      rw [if_neg Bool.false_ne_true, BitVec.and_assoc, BitVec.and_assoc, off, iopl, BitVec.and_zero]
      exact ⟨clear_or_eflIf hardware, bne_self_eq_false _, rfl⟩

/-- What `hv_iret` makes of a frame: whatever the handler has done before it, the call
with the words of the frame brings the guest back to where it was interrupted. -/
def Returns (h : Host) (u : Ureg) (h₁ : Host) : Prop :=
  ∀ (h₂ : Host) (u₂ : Ureg) (key : Word), u₂.eflags &&& ioplMask = u.eflags &&& ioplMask →
    h₂.Calls u₂ 0x02 [wordAt h₁.mem (h₁.ureg.esp + base + 8),
      wordAt h₁.mem (h₁.ureg.esp + base + 16), h₁.ureg.esp + 20, 0, u.eax] →
    (h₂.interrupt u₂ key).2 = some .hypercall ∧ (h₂.interrupt u₂ key).1.ureg.eip = u.eip ∧
      (h₂.interrupt u₂ key).1.ureg.eflags = u.eflags ∧ (h₂.interrupt u₂ key).1.ureg.esp = u.esp ∧
      (h₂.interrupt u₂ key).1.ureg.eax = u.eax ∧ (h₂.interrupt u₂ key).1.flag = h.flag ∧
      ∀ v, InGuest v → (h₂.interrupt u₂ key).1.mem v = h₂.mem v

theorem Delivered.returns {h₁ : Host} (delivered : Delivered h u h₁)
    (hardware : u.eflags &&& eflIf ≠ 0) : Returns h u h₁ := by
  intro h₂ u₂ key iopl calls
  obtain ⟨eflags, flag, saved⟩ := savedEflags_back (h := h) hardware
  rw [delivered.eip, delivered.eflags, delivered.esp] at calls
  have esp : u.esp - 20 + 20 = u.esp := BitVec.sub_add_cancel _ _
  rw [esp] at calls
  have accepted : checkEflags u₂.eflags (savedEflags h u) = true :=
    decide_eq_true (iopl.trans saved.symm)
  rw [interrupt_iret calls accepted]
  exact ⟨rfl, rfl, eflags, rfl, rfl, (flag_iret ..).trans flag,
    fun v inside => mem_iret_guest u₂ _ _ _ _ inside⟩

/-! ### Suspension -/

/-- The actions that leave the flag of virtual interrupts clear. -/
def Quiet : Act → Host → Prop
  | .store v _, _ => userMemStart ≤ v.toNat
  | .setFlag b, _ => b = false
  | .setHandler i _, h => h.slot i ≠ h.pcb + flagOffset
  | _, _ => True

theorem flag_eq_false : h.flag = false ↔ h.mem (h.pcb + flagOffset) = 0 := by
  rw [Host.flag, bne_eq_false_iff_eq]

theorem flag_exec {a : Act} (quiet : Quiet a h) (suspended : h.flag = false) :
    (exec a h).1.flag = false := by
  rw [flag_eq_false] at suspended ⊢
  rw [pcb_exec]
  by_cases resource : a.setsResource = true
  swap
  · have spares : Spares 36 a h := by
      cases a with
      | store => exact quiet
      | setFlag | setHandler => exact absurd rfl resource
      | _ => trivial
    exact (pcbByte_exec (by decide) (by decide) h spares).trans suspended
  cases a with
  | setFlag b =>
      have clear : b = false := quiet
      subst clear
      simp only [exec, Host.put, place, BitVec.sub_self]
      rfl
  | setHandler i eip =>
      have apart : h.slot i ≠ h.pcb + flagOffset := quiet
      simp only [exec]
      split
      · refine (place_other ?_).trans suspended
        simp only [Host.slot, virtualIdtOffset, flagOffset, length_bytesOf] at *
        bv_omega
      · exact (pcbByte_exec (a := .vanish Host.guestCrashStatus) (by decide) (by decide) h
          trivial).trans suspended
  | _ => cases resource

theorem quiet_other (a : Act) (h : Host) (confined : Confined a h) (resource : a.setsResource = false) :
    Quiet a h := by
  cases a with
  | store v b => exact confined.1
  | setFlag | setHandler => cases resource
  | _ => trivial

theorem pushes_quiet : Pushes Quiet := by
  refine ⟨fun _ _ => trivial, fun v b h user => ?_⟩
  simp only [userPageStart, userMemStart, pageSize] at user
  simp only [Quiet, userMemStart]
  omega

theorem permits_quiet (u : Ureg) (n : Nat) : Permits Quiet u n :=
  ⟨fun i _ => stays_arg (fun _ _ => trivial) u i, quiet_other⟩

/-- A program of quiet actions leaves the flag clear. -/
theorem does_quiet {α : Type} {p : Program α} (stays : Stays Quiet p) :
    Does exec Host.alive Quiet (fun h => h.flag = false) p fun _ h => h.flag = false := by
  refine fun s suspended => ⟨(stays s trivial).1, fun x _ => ?_⟩
  exact (stays s trivial).1.keeps (fun a s quiet => flag_exec quiet) suspended

/-- The delivery of an interrupt suspends virtual interrupts. -/
theorem suspends_deliver : Does exec Host.alive Quiet (fun _ => True) (deliver u key) fun r h' =>
    r = .delivered → h'.flag = false := by
  have reads : ∀ a, (∀ h, Quiet a h) → Does exec Host.alive Quiet (fun h => h.flag = false) (act a)
      fun _ h => h.flag = false := fun a quiet => does_quiet (stays_act quiet)
  refine .bind (Q := fun _ _ => True) (stays_act fun _ => trivial) fun flag => ?_
  refine .bind (Q := fun _ h => h.flag = false) (.perform (fun _ _ => rfl) ?_) fun _ => ?_
  · rintro s - -
    refine flag_eq_false.mpr ?_
    simp only [exec, Host.put, place, BitVec.sub_self]
    rfl
  refine .bind (does_quiet (stays_pushMode pushes_quiet (fun _ => trivial) _)) fun esp => ?_
  cases esp with
  | none => exact does_crashed fun _ _ => trivial
  | some esp =>
      refine .bind (does_quiet (stays_pushWords pushes_quiet _ _)) fun esp => ?_
      cases esp with
      | none => exact does_crashed fun _ _ => trivial
      | some esp =>
          exact .bind (reads (.alterPageDir true) fun _ => trivial) fun _ =>
            .bind (reads (.handler u.cause) fun _ => trivial) fun _ =>
              .bind (does_quiet (stays_act fun _ => trivial)) fun _ => .ret fun _ off _ => off

theorem flag_delivered (delivered : (h.interrupt u key).2 = some .delivered) :
    (h.interrupt u key).1.flag = false := by
  have same := interrupt_delivered delivered
  rw [same] at delivered ⊢
  exact (suspends_deliver (h.trap u) trivial).2 .delivered delivered rfl

/-- The guest asks for virtual interrupts again. -/
def Resumes : Event → Prop
  | .interrupt u _ => u.cause = hvInt ∧ (u.eax = 0x02 ∨ u.eax = 0x05)
  | .store .. => False

/-- A call of `hv_setidt` does not take the flag of virtual interrupts for a slot, as one
with -2 does. -/
def SparesFlag (h : Host) (e : Event) : Prop :=
  ∀ irqno eip, h.setidt? e = some (irqno, eip) → irqno.toInt < virtualIdtLen →
    h.slot irqno ≠ h.pcb + flagOffset

/-- No interrupt of the timer or the keyboard is delivered. -/
def Suspends (h : Host) (e : Event) : Prop :=
  ∀ u key, e = .interrupt u key → u.cause = timerIdtEntry ∨ u.cause = keyIdtEntry →
    (h.interrupt u key).2 ≠ some .delivered

theorem suspends_of_flag (suspended : h.flag = false) (e : Event) : Suspends h e := by
  rintro u key - soft
  have call : u.cause ≠ hvInt := by
    rintro call
    rw [call] at soft
    exact absurd soft (by decide)
  have flag : (h.trap u).flag = false := suspended
  rw [Host.interrupt]
  unfold handleVirtualInterrupt
  rw [if_neg call, if_pos soft, eval_bind_some (eval_flag (alive_trap h u)), flag]
  intro no
  cases no

theorem flag_exec_store {v : Word} {b : Byte} (user : userMemStart ≤ v.toNat)
    (suspended : h.flag = false) : (h.put v [b]).flag = false := by
  have placed := h.placed
  rw [flag_eq_false] at suspended ⊢
  refine (place_other ?_).trans suspended
  simp only [pcbSize, virtualIdtLen, userMemStart, flagOffset, List.length_singleton, Host.put] at *
  bv_omega

/-- A step that does not ask for virtual interrupts leaves them suspended. -/
theorem flag_step {e : Event} (suspended : h.flag = false) (other : ¬ Resumes e)
    (spares : SparesFlag h e) : (h.step e).flag = false := by
  cases call : h.setidt? e with
  | some args =>
      obtain ⟨irqno, eip⟩ := args
      obtain ⟨u, -, step⟩ := step_setidt call
      rw [step, Host.setIdt]
      split
      · rename_i small
        exact flag_exec (h := h.trap u) (spares irqno eip call small) suspended
      · exact suspended
  | none =>
      cases e with
      | store v b =>
          rw [Host.step]
          split
          swap
          · exact suspended
          rename_i inside
          exact flag_exec_store inside.2.1 suspended
      | interrupt u key =>
          rw [Host.step]
          split
          swap
          · exact suspended
          rename_i alive
          obtain crash | setidt := interrupt_other alive call
          · rw [crash]
            exact flag_exec (h := h.trap u) (a := .vanish Host.guestCrashStatus) trivial suspended
          · have stays : Stays Quiet (handleVirtualInterrupt u key) := by
              refine stays_interrupt pushes_quiet quiet_other (fun _ => rfl) fun isCall handler found => ?_
              have number : ∀ {n : Word}, u.eax.toNat = n.toNat → u.eax = n := BitVec.eq_of_toNat_eq
              refine (permits_quiet u _).handler found (fun iret => ?_) (fun set => ?_)
                (fun _ _ => rfl) fun enable => ?_
              · exact absurd ⟨isCall, .inl (number iret)⟩ other
              · exact absurd ⟨isCall, number set⟩ setidt
              · exact absurd ⟨isCall, .inr (number enable)⟩ other
            exact (stays (h.trap u) trivial).1.keeps (fun a s quiet => flag_exec quiet) suspended

/-! ### Delivery and return -/

/-- The memory of the guest from the stack pointer up is as it was. -/
def KeepsAbove (h : Host) (u : Ureg) (h' : Host) : Prop :=
  ∀ v, InGuest v → u.esp.toNat ≤ (v - base).toNat → h'.mem v = h.mem v

/-- The bytes from `v` on lie in the memory of the guest. -/
def GuestRange (v : Word) (n : Nat) : Prop :=
  userMemStart ≤ v.toNat ∧ v.toNat + n ≤ userMemStart + guestMemSize

theorem GuestRange.inside {v w : Word} {n : Nat} (range : GuestRange v n) (lt : (w - v).toNat < n) :
    InGuest w := by
  simp only [GuestRange, InGuest, userMemStart, guestMemSize] at *
  bv_omega

theorem eval_mapAndClear_guest (alive : h.alive = true) {vs : List Nat}
    (inside : ∀ v ∈ vs, InGuest (.ofNat 32 v)) :
    (forAll (fun v => act (.mapAndClear (.ofNat 32 v))) vs).eval exec Host.alive h = (h, some true) := by
  induction vs with
  | nil => rfl
  | cons v vs ih =>
      have one : (act (.mapAndClear (.ofNat 32 v))).eval exec Host.alive h = (h, some true) := by
        have same : exec (.mapAndClear (.ofNat 32 v)) h = (h, true) :=
          h.mapAndClear_guest (inside v List.mem_cons_self)
        rw [eval_perform, same, if_pos alive]
      rw [forAll, eval_bind_some one]
      exact ih fun w mem => inside w (List.mem_cons_of_mem v mem)

theorem eval_storeBytes_guest (alive : h.alive = true) {v : Word} {bytes : List Byte}
    (range : GuestRange v bytes.length) :
    (storeBytes v bytes).eval exec Host.alive h = (h.put v bytes, some ()) := by
  induction bytes generalizing h v with
  | nil => rfl
  | cons b bs ih =>
      have fits := range.2
      rw [List.length_cons] at range fits
      have inside : InGuest v := range.inside (by rw [BitVec.sub_self]; exact Nat.succ_pos _)
      have one : (act (.store v b)).eval exec Host.alive h = (h.put v [b], some ()) := by
        have there : exec (.store v b) h = (h.put v [b], ()) := if_pos (h.present_guest inside)
        rw [eval_perform, there]
        exact if_pos alive
      have rest : GuestRange (v + 1) bs.length := by
        simp only [GuestRange, userMemStart, guestMemSize] at *
        bv_omega
      rw [storeBytes, eval_bind_some one, ih (h := h.put v [b]) alive rest, Host.put, Host.put]
      have whole : place (place h.mem v [b]) (v + 1) bs = place h.mem v (b :: bs) :=
        place_append h.mem v [b] bs (by
          simp only [userMemStart, guestMemSize, List.length_singleton] at *
          omega)
      dsimp only
      rw [whole]
      rfl

theorem eval_pushVal_guest (alive : h.alive = true) {e : Word} (aligned : e.toNat % 4 = 0)
    (range : GuestRange e 4) (w : Word) :
    (pushVal (e + 4) (bytesOf w)).eval exec Host.alive h = (h.put e (bytesOf w), some (some e)) := by
  have addr : (e + 4 - .ofNat 32 (bytesOf w).length) / 4 * 4 = e := by
    have four : e + 4 - .ofNat 32 (bytesOf w).length = e := BitVec.add_sub_cancel e 4
    refine BitVec.eq_of_toNat_eq ?_
    rw [four, toNat_align]
    omega
  have size : e + 4 - e = 4 := by bv_omega
  have padding : (4 - .ofNat 32 (bytesOf w).length : Word).toNat = 0 := by
    rw [length_bytesOf]
    decide
  have pages : ∀ v ∈ Memory.pagesOf e.toNat (4 : Word).toNat, InGuest (.ofNat 32 v) := by
    intro v mem
    rw [Memory.pagesOf, if_neg (by decide), List.mem_map] at mem
    obtain ⟨i, lt, rfl⟩ := mem
    rw [List.mem_range] at lt
    have four : (4 : Word).toNat = 4 := rfl
    simp only [GuestRange, InGuest, userMemStart, guestMemSize, pageSize, four,
      BitVec.toNat_ofNat] at *
    omega
  rw [pushVal, if_neg (by simp [bytesOf])]
  dsimp only
  rw [addr, size, mapAndClear, eval_bind_some (eval_mapAndClear_guest alive pages), if_pos rfl,
    eval_bind_some (eval_storeBytes_guest alive range), padding]
  rfl

theorem eval_pushWords_guest (alive : h.alive = true) (ws : List Word) {e : Word}
    (frame : List Byte) (aligned : e.toNat % 4 = 0) (range : GuestRange e (4 * ws.length))
    (fits : frame.length + 4 * ws.length < 2 ^ 32) :
    (pushWords (e + .ofNat 32 (4 * ws.length)) ws).eval exec Host.alive
        (h.put (e + .ofNat 32 (4 * ws.length)) frame) =
      (h.put e (frameOf frame ws), some (some e)) := by
  induction ws generalizing frame with
  | nil =>
      have start : e + .ofNat 32 (4 * ([] : List Word).length) = e := BitVec.add_zero e
      rw [start]
      rfl
  | cons w ws ih =>
      rw [List.length_cons] at range fits ⊢
      have next : e + .ofNat 32 (4 * (ws.length + 1)) = e + .ofNat 32 (4 * ws.length) + 4 := by
        bv_omega
      have one := eval_pushVal_guest (h := h.put (e + .ofNat 32 (4 * ws.length) + 4) frame) alive
        (e := e + .ofNat 32 (4 * ws.length))
        (by simp only [GuestRange, userMemStart, guestMemSize] at range; bv_omega)
        (by simp only [GuestRange, userMemStart, guestMemSize] at *; bv_omega) w
      have both : (h.put (e + .ofNat 32 (4 * ws.length) + 4) frame).put
          (e + .ofNat 32 (4 * ws.length)) (bytesOf w) =
          h.put (e + .ofNat 32 (4 * ws.length)) (bytesOf w ++ frame) := by
        have whole := place_prepend h.mem (e + .ofNat 32 (4 * ws.length)) (bytesOf w) frame
          (by rw [length_bytesOf]; omega)
        rw [Host.put, Host.put, Host.put]
        congr 1
      rw [next, pushWords, eval_bind_some one, both]
      refine ih _ ?_ ?_
      · simp only [GuestRange] at range ⊢
        omega
      · rw [List.length_append, length_bytesOf]
        omega

/-- The host after the delivery of an interrupt whose frame starts at `e`. -/
def Host.framed (h : Host) (u : Ureg) (key e : Word) : Host :=
  let h' := ((h.trap u).suspend.put e (frameOf [] (frameWords h u key))).alterPageDir true
  { h' with ureg := { h'.ureg with
      ss := guestKernelDs, esp := e - base, cs := guestKernelCs, eip := h'.idt u.cause - base
      gs := guestKernelDs, fs := guestKernelDs, es := guestKernelDs, ds := guestKernelDs } }

/-- In the kernel of a guest an interrupt is delivered if there is room for its frame. -/
theorem eval_deliver_guest (kernel : u.cs = guestKernelCs) {e : Word} (aligned : e.toNat % 4 = 0)
    (range : GuestRange e 20) (esp : u.esp + base = e + 20) :
    (deliver u key).eval exec Host.alive (h.trap u) = (h.framed u key e, some .delivered) := by
  have suspend : (act (.setFlag false)).eval exec Host.alive (h.trap u) =
      ((h.trap u).suspend, some ()) := rfl
  have mode := eval_pushWords_guest (h := (h.trap u).suspend) rfl
    [savedEflags h u, guestInterruptKmode] (e := e + 12) [] (by bv_omega)
    (by simp only [GuestRange, userMemStart, guestMemSize, List.length_cons, List.length_nil] at *; bv_omega)
    (by simp)
  have rest := eval_pushWords_guest (h := (h.trap u).suspend) rfl
    [u.eip, errCode u key, faultingAddr u] (e := e)
    (frameOf [] [savedEflags h u, guestInterruptKmode]) aligned
    (by simp only [GuestRange, userMemStart, guestMemSize, List.length_cons, List.length_nil] at *; omega)
    (by simp [frameOf, length_bytesOf])
  have top : e + 12 + .ofNat 32 (4 * [savedEflags h u, guestInterruptKmode].length) = u.esp + base := by
    rw [esp, List.length_cons, List.length_singleton]
    bv_omega
  have middle : e + .ofNat 32 (4 * [u.eip, errCode u key, faultingAddr u].length) = e + 12 := rfl
  have clean : (h.trap u).suspend.put (u.esp + base) [] = (h.trap u).suspend := rfl
  have alter : ∀ s : Host, s.alive = true →
      (act (.alterPageDir true)).eval exec Host.alive s = (s.alterPageDir true, some ()) := by
    intro s alive
    rw [eval_perform]
    exact if_pos alive
  have saved : (if (h.trap u).flag = true then u.eflags ||| eflIf else u.eflags &&& ~~~eflIf) =
      savedEflags h u := rfl
  rw [top, clean] at mode
  rw [middle] at rest
  rw [deliver, eval_bind_some (eval_flag (alive_trap h u)), saved, eval_bind_some suspend, pushMode,
    if_neg (not_not.mpr kernel), eval_bind_some mode]
  dsimp only
  rw [eval_bind_some rest]
  dsimp only
  rw [eval_bind_some (alter _ rfl), eval_bind_some (eval_handler rfl u.cause)]
  rfl

theorem interrupt_guest (soft : u.cause = timerIdtEntry ∨ u.cause = keyIdtEntry)
    (enabled : h.flag = true) (installed : h.idt u.cause ≠ 0) (kernel : u.cs = guestKernelCs)
    {e : Word} (aligned : e.toNat % 4 = 0) (range : GuestRange e 20) (esp : u.esp + base = e + 20) :
    h.interrupt u key = (h.framed u key e, some .delivered) := by
  have call : u.cause ≠ hvInt ∧ u.cause.toNat < virtualIdtLen := by
    obtain timer | key := soft
    · rw [timer]
      decide
    · rw [key]
      decide
  rw [Host.interrupt]
  unfold handleVirtualInterrupt
  rw [if_neg call.1, if_pos soft, eval_bind_some (eval_flag (alive_trap h u))]
  rw [if_pos (show (h.trap u).flag = true from enabled), findHandler, if_pos call.2,
    eval_bind_some (eval_handler (alive_trap h u) u.cause),
    if_pos (show (h.trap u).idt u.cause ≠ 0 from installed)]
  exact eval_deliver_guest kernel aligned range esp

/-! ### A timer interrupt that comes back -/

/-- A host whose guest has a handler for the timer, and -2 and 1 at the start of its memory. -/
def timerHost : Host :=
  { negativeHost with
    mem := place (place negativeHost.mem (negativeHost.pcb + flagOffset) [1])
      (negativeHost.slot timerIdtEntry) (bytesOf (base + 0x4000)) }

def timerRegs : Ureg := { exitRegs with cause := timerIdtEntry, esp := 0x2000 }

theorem timer_delivered : timerHost.interrupt timerRegs 0 =
    (timerHost.framed timerRegs 0 (base + 0x1FEC), some .delivered) :=
  interrupt_guest (.inl rfl) (by decide +kernel) (by decide +kernel) rfl (by decide)
    (by unfold GuestRange; decide) (by decide)

end OsKernel.Guest
