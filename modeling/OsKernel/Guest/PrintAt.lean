/-
`hv_print_at` and what it borrows (`handle_hv_print_at` of `kern/virtual_interrupt.c`).

The call moves the cursor and sets a colour, prints, and puts both back. It gets them back
whatever happens in between: the cursor it has read stands on the screen, and the colour it
has read is one that `set_term_color` takes.
-/

import OsKernel.Guest.Rules
import OsKernel.Guest.Screen

namespace OsKernel.Guest

open Prog Run

/-! ### The cursor and the colour -/

/-- The cursor and the colour are where they were. -/
structure Console.Restored (c c' : Console) : Prop where
  row : c'.row = c.row
  col : c'.col = c.col
  color : c'.currentColor = c.currentColor

theorem Console.restored {c : Console} (valid : Console.validatePos c.row c.col = true) (c' : Console) :
    c.Restored ((c'.setCursor c.row c.col).1.setTermColor c.getTermColor).1 := by
  have accepted : Console.isUnsignedChar c.getTermColor = true := by
    refine decide_eq_true ?_
    rw [Console.getTermColor, BitVec.ofInt_natCast, BitVec.ofNat_toNat, BitVec.setWidth_eq]
  rw [Console.setCursor, if_pos valid, Console.setTermColor, if_pos accepted]
  refine ⟨rfl, rfl, ?_⟩
  rw [Console.getTermColor, BitVec.ofInt_natCast, BitVec.ofNat_toNat, BitVec.setWidth_eq]

section
variable {h : Host} {α : Type} {c : Console}

/-- The host with another console. -/
def Host.show (h : Host) (c : Console) : Host := { h with console := c }

/-- However the program ends, the cursor and the colour are those of the console `c`. -/
def Restores (c : Console) (p : Program α) (h : Host) : Prop :=
  c.Restored (p.eval exec Host.alive h).1.console

theorem restores_load (alive : h.alive = true) (same : c.Restored h.console) (v : Word)
    {k : Byte → Program α} (next : ∀ b, Restores c (k b) h) : Restores c (act (.load v) >>= k) h := by
  rw [Restores, eval_bind, eval_perform, exec]
  by_cases there : h.present v = true
  · rw [if_pos there, if_pos alive]
    exact next (h.mem v)
  · rw [if_neg there, if_neg (show ¬ h.fault.alive = true from Bool.false_ne_true)]
    exact same

theorem restores_arg (alive : h.alive = true) (same : c.Restored h.console) (u : Ureg) (i : Nat)
    {k : Word → Program α} (next : ∀ w, Restores c (k w) h) : Restores c (arg u i >>= k) h := by
  rw [arg, loadWord]
  simp only [bind_assoc]
  exact restores_load alive same _ fun _ => restores_load alive same _ fun _ =>
    restores_load alive same _ fun _ => restores_load alive same _ fun _ => next _

theorem restores_crash (same : c.Restored h.console) : Restores c crashGuest h := by
  rw [Restores, crashGuest, eval_perform_state]
  exact same

/-- An action of the console driver. -/
theorem restores_console (alive : h.alive = true) (f : Console → Console × Int) {c' : Console}
    {k : Int → Program α} (next : Restores c (k (f c').2) (h.show (f c').1)) :
    Restores c (act (.console f) >>= k) (h.show c') := by
  have done : (act (.console f)).eval exec Host.alive (h.show c') =
      (h.show (f c').1, some (f c').2) := by
    rw [eval_perform]
    exact if_pos alive
  rw [Restores, eval_bind_some done]
  exact next

/-- The string is in the memory of the guest, which is mapped: printing it comes to its end. -/
theorem restores_putbytes (alive : h.alive = true) {v : Word} {n : Nat}
    (range : Host.isHostReadable v n = true) {k : Unit → Program α}
    (next : ∀ c', Restores c (k ()) (h.show c')) (c' : Console) :
    Restores c (putbytes v n >>= k) (h.show c') := by
  induction n generalizing v c' with
  | zero => exact next c'
  | succ n ih =>
      obtain ⟨inside, rest⟩ := readable_succ range
      have there : (h.show c').present v = true := by
        rw [Host.present, (h.show c').resident v inside, Bool.or_true]
      have load : (act (.load v)).eval exec Host.alive (h.show c') = (h.show c', some (h.mem v)) := by
        rw [eval_perform, exec, if_pos there]
        exact if_pos alive
      rw [putbytes, bind_assoc, Restores, eval_bind_some load, bind_assoc]
      exact restores_console alive _ (ih rest _)

/-- The handler, from a cursor on the screen. -/
theorem restores_printAt (alive : h.alive = true)
    (valid : Console.validatePos h.console.row h.console.col = true) (u : Ureg) :
    Restores h.console (handleHvPrintAt u) h := by
  have same : h.console.Restored h.console := ⟨rfl, rfl, rfl⟩
  refine restores_arg alive same u 0 fun len => restores_arg alive same u 1 fun buf =>
    restores_arg alive same u 2 fun row => restores_arg alive same u 3 fun col =>
      restores_arg alive same u 4 fun color => ?_
  split
  swap
  · exact restores_crash same
  rename_i accepted
  refine restores_console alive _ (restores_console alive _ (restores_console alive _ ?_))
  dsimp only
  -- the two calls that put back what has been read, from any console
  have back : ∀ (c : Console) (next : Program Unit),
      (∀ h' : Host, h.console.Restored h'.console → Restores h.console next h') →
      Restores h.console ((do
        let _ ← act (.console fun c => result (c.setCursor h.console.row h.console.col))
        let _ ← act (.console fun c => result (c.setTermColor h.console.getTermColor))
        pure ()) >>= fun _ => next) (h.show c) := fun c next then_ => by
    simp only [bind_assoc]
    exact restores_console alive _ (restores_console alive _ (then_ _ (Console.restored valid c)))
  have crashes : ∀ h' : Host, h.console.Restored h'.console → Restores h.console crashGuest h' :=
    fun h' => restores_crash
  refine restores_console alive _ ?_
  split
  · exact back _ _ crashes
  refine restores_console alive _ ?_
  split
  · exact back _ _ crashes
  · refine restores_putbytes alive (printable_range accepted) (fun c' => ?_) _
    have ends := back c' (pure ()) fun h' restored => restored
    rwa [bind_pure_unit] at ends

end

/-- After booting, `hv_print_at` with any arguments leaves the cursor and the colour as they
were, whether it prints or crashes the guest. -/
theorem printAt_restores (boot : Console) (ks : List ConsoleCall) (h : Host) (u : Ureg) :
    (run Console.call boot.clearConsole ks).Restored
      ((handleHvPrintAt u).eval exec Host.alive
        ((h.trap u).show (run Console.call boot.clearConsole ks))).1.console := by
  have placed := (Console.cursor_on_screen boot ks).last.1
  exact restores_printAt (h := (h.trap u).show _) rfl
    (Console.validatePos_iff.mpr ⟨placed.row.1, placed.row.2, placed.col.1, placed.col.2⟩) u

end OsKernel.Guest
