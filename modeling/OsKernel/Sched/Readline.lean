/-
The lock of `readline` (`handle_readline` of `kern/system_call.c`, `handle_keyboard` of
`kern/keyboard.c`, `kern/mutex.c`) under preemption.

What the source does with interrupts disabled is one step of the thread at the head of the
`RUNNING` list. A thread that blocked on the lock is switched to with interrupts disabled,
and enables them only after its own `mutex_try_lock`; as long as it runs at that place
there is neither an interrupt nor a switch. What a thread finds in the buffers is an input
here. The mutexes of the PCB and of the output only delay a thread, and the order of the
`READY` list plays no role: both are left out. `queue` is bookkeeping: the threads that found
the lock taken and have not been served, in the order in which they blocked.
-/

import OsKernel.Lib.Run
import OsKernel.Sched.Lists

namespace OsKernel.Sched.Readline

open Run

/-- Where a thread is in `handle_readline`. -/
inductive Pc where
  | user
  /-- At `mutex_try_lock`. -/
  | arrive
  /-- Switched out because the lock was taken; next is the other `mutex_try_lock`. -/
  | blocked
  /-- At the test for characters left over in `ch_buf`. -/
  | check
  /-- At `extract_ch`. -/
  | extract
  /-- Switched out as the first reader. -/
  | wait
  /-- A character is echoed and goes to `ch_buf`. -/
  | echo
  /-- About to unlock, after the copy to the caller. -/
  | release
  /-- The lock is given up; next the thread returns. -/
  | released
deriving DecidableEq

/-- Between acquiring `input_lock` and releasing it. -/
def Pc.inside : Pc → Bool
  | check | extract | wait | echo | release => true
  | _ => false

structure State where
  k : Threads
  /-- `input_lock` -/
  locked : Bool
  pc : Thread → Pc
  queue : List Thread

inductive Input where
  /-- The next step of the running thread: `data` tells whether it finds a character (at
  `echo`: a newline), `choice` is what `find_next_thread` finds. -/
  | advance (data : Bool) (choice : Option Thread)
  /-- The running thread calls `readline`. -/
  | call
  /-- The processor is taken from the running thread. -/
  | preempt (u : Thread)
  | keyboard
  /-- The rest of the kernel moves a thread. -/
  | alter (u : Thread) (state : ThreadState) (detail : Option BlockingDetail)

def findNextThread (k : Threads) (choice : Option Thread) : Option Thread :=
  choice.filter fun u => u ∈ k.lists (.state .ready)

/-- The `READLINE` list. -/
def readers (k : Threads) : List Thread := k.lists (.reason .readline)

/-- The part of `handle_keyboard` after the scancode is stored. -/
def handleKeyboard (k : Threads) : Threads :=
  match readers k with
  | [] => k
  | h :: _ => if (k.tcb h).detail.firstReader then k.switchContext h .ready none else k

namespace State

def inside (s : State) (t : Thread) : Prop := (s.pc t).inside = true

def goto (s : State) (t : Thread) (pc : Pc) : State := { s with pc := Function.update s.pc t pc }

def running (s : State) : Option Thread := (s.k.lists (.state .running)).head?

/-- Interrupts are enabled between two steps, but for a thread that has just been
switched to at the lock. -/
def interrupts (s : State) : Bool := s.running.all fun t => s.pc t ≠ .blocked

/-- The next step of thread `t`. -/
def advance (s : State) (t : Thread) (data : Bool) (choice : Option Thread) : State :=
  match s.pc t with
  | .user => s
  | .arrive =>
      if s.locked then match findNextThread s.k choice with
        -- the machine halts
        | none => s
        | some u => { s.goto t .blocked with
            k := s.k.switchContext u .waiting (some (.readline false))
            queue := s.queue ++ [t] }
      else { s.goto t .check with locked := true }
  -- the result of `mutex_try_lock` is ignored
  | .blocked => { s.goto t .check with locked := true, queue := s.queue.erase t }
  | .check => if data then s.goto t .release else s.goto t .extract
  | .extract =>
      if data then s.goto t .echo else match findNextThread s.k choice with
        | none => s
        | some u => { s.goto t .wait with
            k := s.k.switchContext u .waiting (some (.readline true)) }
  | .wait => s.goto t .extract
  | .echo => if data then s.goto t .release else s.goto t .extract
  | .release =>
      match readers s.k with
      | [] => { s.goto t .released with locked := false }
      | h :: _ => { s.goto t .released with locked := false, k := s.k.switchContext h .ready none }
  | .released => s.goto t .user

def step (s : State) : Input → State
  | .advance data choice => match s.running with
    | some t => s.advance t data choice
    | none => s
  | .call => match s.running with
    | some t => if s.pc t = .user then s.goto t .arrive else s
    | none => s
  | .preempt u =>
      if s.interrupts ∧ u ∈ s.k.lists (.state .ready) then
        { s with k := s.k.switchContext u .ready none }
      else s
  | .keyboard => if s.interrupts then { s with k := handleKeyboard s.k } else s
  | .alter u state detail =>
      -- nobody else touches the list of the readers
      if s.interrupts ∧ u ∉ readers s.k ∧ detail.map BlockingDetail.reason ≠ some .readline then
        { s with k := s.k.alter u state detail }
      else s

end State

/-! ### Moves -/

section
variable {k : Threads} {t u : Thread} {state : ThreadState} {detail : Option BlockingDetail}

/-- A thread from another list does not go to the readers. -/
theorem readers_alter (state : ThreadState) (detail : Option BlockingDetail) (out : t ∉ readers k)
    (other : detail.map BlockingDetail.reason ≠ some .readline) :
    readers (k.alter t state detail) = readers k ∧
      ∀ u ∈ readers k, (k.alter t state detail).tcb u = k.tcb u := by
  refine ⟨?_, fun u mem => Threads.alter_tcb_other fun self => out (self ▸ mem)⟩
  obtain same | ⟨idx, d, frontPushed, old, mem, goes⟩ := k.alter_cases t state detail
  · rw [same]
  have apart : ListIdx.reason .readline ≠ idx := by
    rw [Threads.destination_idx goes]
    cases state with
    | waiting =>
        cases detail with
        | none => cases goes
        | some detail => exact fun same => other (by simpa using same.symm)
    | _ => nofun
  have own : ListIdx.reason .readline ≠ (k.tcb t).listIdx := fun same => out (by
    rw [readers, same]
    exact mem)
  rw [Threads.alterState_eq old mem goes, readers, Threads.moved_lists_other apart,
    Threads.unlink_other own]
  rfl

theorem not_reader (wf : k.WellFormed) {i : ListIdx} (mem : t ∈ k.lists i)
    (other : i ≠ .reason .readline) : t ∉ readers k := fun reader => by
  have one := wf.listed _ t reader
  rw [wf.listed i t mem] at one
  exact other one

/-- A switch between two threads that are not readers. -/
theorem readers_preempt (wf : k.WellFormed) (ready : u ∈ k.lists (.state .ready)) :
    readers (k.switchContext u .ready none) = readers k ∧
      ∀ v ∈ readers k, (k.switchContext u .ready none).tcb v = k.tcb v := by
  cases running : k.lists (.state .running) with
  | nil =>
      have stays : k.switchContext u .ready none = k := by
        rw [Threads.switchContext, if_neg (by simp), running]
      rw [stays]
      exact ⟨rfl, fun _ _ => rfl⟩
  | cons t rest =>
      rw [Threads.switchContext_eq running (by simp)]
      have first := not_reader wf (running ▸ List.mem_cons_self) (by decide)
      obtain ⟨list, kept⟩ := readers_alter .ready none first fun no => by cases no
      have second : u ∉ readers (k.alter t .ready none) := by
        rw [list]
        exact not_reader wf ready (by decide)
      obtain ⟨list', kept'⟩ := readers_alter .running none second fun no => by cases no
      exact ⟨list'.trans list, fun v mem => (kept' v (list.symm ▸ mem)).trans (kept v mem)⟩

/-- Where a reader that blocks is put. -/
def blockedReaders (t : Thread) (first : Bool) (l : List Thread) : List Thread :=
  if first then t :: l else l ++ [t]

theorem place_reader {l : List Thread} (new : t ∉ l) (first : Bool) :
    place l t l.head? first = blockedReaders t first l := by
  cases l with
  | nil => cases first <;> rfl
  | cons h rest =>
      have other : h ≠ t := fun same => new (same ▸ List.mem_cons_self)
      cases first <;> simp [place, other, blockedReaders]

/-- The running thread blocks as a reader. -/
theorem readers_block (wf : k.WellFormed) {rest : List Thread} (first : Bool)
    (running : k.lists (.state .running) = t :: rest) (ready : u ∈ k.lists (.state .ready)) :
    readers (k.switchContext u .waiting (some (.readline first))) =
        blockedReaders t first (readers k) ∧
      ((k.switchContext u .waiting (some (.readline first))).tcb t).detail = .readline first ∧
      ∀ v ∈ readers k, (k.switchContext u .waiting (some (.readline first))).tcb v = k.tcb v := by
  have mem : t ∈ k.lists (.state .running) := running ▸ List.mem_cons_self
  have out : t ∉ readers k := not_reader wf mem (by decide)
  have apart : u ≠ t := fun same => by
    have one := wf.listed _ u ready
    rw [same, wf.listed _ t mem] at one
    cases one
  rw [Threads.switchContext_eq running (by simp)]
  have goes : k.destination t (some (.readline first)) .waiting =
      some (.reason .readline, (readers k).head?, first) := rfl
  have list := (wf.alter_lists mem (by decide) (by decide) goes).1
  have place := place_reader out first
  have second : u ∉ readers (k.alter t .waiting (some (.readline first))) := by
    intro reader
    rcases Threads.mem_lists_alter reader with old | ⟨same, -⟩
    · exact not_reader wf ready (by decide) old
    · exact apart same
  obtain ⟨list', kept'⟩ := readers_alter .running none second nofun
  have whole := list.trans place
  refine ⟨list'.trans whole, ?_, fun v reader => ?_⟩
  · rw [Threads.alter_tcb_other apart.symm]
    have own := wf.listed _ t mem
    rw [Threads.alterState_eq (fun new => by rw [Tcb.listIdx, new] at own; cases own)
      (by rw [own]; exact mem) goes, Threads.moved_tcb_self]
    rfl
  · have kept : v ∈ readers (k.alter t .waiting (some (.readline first))) := by
      rw [readers, whole]
      cases first <;> simp [blockedReaders, reader]
    have other : v ≠ t := fun same => out (same ▸ reader)
    rw [kept' v kept, Threads.alter_tcb_other other]

/-- The processor goes to the first of the readers. -/
theorem readers_wake (wf : k.WellFormed) {h : Thread} {rest tail : List Thread}
    (running : k.lists (.state .running) = t :: rest) (list : readers k = h :: tail) :
    readers (k.switchContext h .ready none) = tail ∧
      ((k.switchContext h .ready none).lists (.state .running)).head? = some h ∧
      ∀ v ∈ tail, (k.switchContext h .ready none).tcb v = k.tcb v := by
  have mem : t ∈ k.lists (.state .running) := running ▸ List.mem_cons_self
  have out : t ∉ readers k := not_reader wf mem (by decide)
  rw [Threads.switchContext_eq running (by simp)]
  obtain ⟨same, kept⟩ := readers_alter .ready none out nofun
  have wf' := wf.alter t .ready none
  generalize k.alter t .ready none = k' at same kept wf'
  have reader : h ∈ k'.lists (.reason .readline) := by
    change h ∈ readers k'
    rw [same, list]
    exact List.mem_cons_self
  have goes : k'.destination h none .running =
      some (.state .running, (k'.lists (.state .running)).head?, true) := rfl
  obtain ⟨front, left, -⟩ := wf'.alter_lists reader (by decide) (by decide) goes
  have new : h ∉ k'.lists (.state .running) := fun mem => not_reader wf' mem (by decide) reader
  rw [place_reader new true] at front
  have once : (h :: tail).Nodup := by
    rw [← list]
    exact wf.nodup (.reason .readline)
  refine ⟨?_, by rw [front]; rfl, fun v mem => ?_⟩
  · rw [readers, left, ← readers, same, list, List.erase_cons_head]
  · have other : v ≠ h := fun same => (List.nodup_cons.mp once).1 (same ▸ mem)
    rw [Threads.alter_tcb_other other, kept v (by rw [list]; exact List.mem_cons_of_mem _ mem)]

end

/-! ### The holder and the queue -/

/-- Nobody has the lock handed over: the readers are the queue, behind a holder that waits
for a character, and the lock is taken exactly while there is a holder. -/
structure Quiet (s : State) : Prop where
  held : s.locked = true ↔ ∃ t, s.inside t
  list : readers s.k = s.queue ∨ ∃ t, s.pc t = .wait ∧ readers s.k = t :: s.queue
  free : s.locked = false → s.queue = []

/-- The lock is free and the running thread, the first of the queue, is about to take it. -/
structure Turn (s : State) (t : Thread) : Prop where
  running : s.running = some t
  queue : s.queue = t :: readers s.k
  free : s.locked = false
  nobody : ∀ u, ¬ s.inside u

structure Inv (s : State) : Prop where
  wellFormed : s.k.WellFormed
  alone : ∀ t u, s.inside t → s.inside u → t = u
  queued : ∀ t, t ∈ s.queue ↔ s.pc t = .blocked
  first : ∀ t ∈ readers s.k, (s.k.tcb t).detail.firstReader = decide (s.pc t = .wait)
  phase : Quiet s ∨ ∃ t, Turn s t

section
variable {s : State} {t : Thread}

theorem mem_running (running : s.running = some t) : t ∈ s.k.lists (.state .running) :=
  List.mem_of_mem_head? running

theorem running_cons (running : s.running = some t) :
    ∃ rest, s.k.lists (.state .running) = t :: rest := by
  rw [State.running] at running
  cases list : s.k.lists (.state .running) with
  | nil =>
      rw [list] at running
      cases running
  | cons h rest =>
      rw [list] at running
      exact ⟨rest, congrArg (· :: rest) (Option.some.inj running)⟩

theorem Quiet.subset (quiet : Quiet s) {t : Thread} (mem : t ∈ s.queue) : t ∈ readers s.k := by
  rcases quiet.list with list | ⟨u, -, list⟩
  · rw [list]
    exact mem
  · rw [list]
    exact List.mem_cons_of_mem u mem

/-- Unless it has its turn, the running thread is no reader and has not blocked. -/
theorem Inv.not_blocked (inv : Inv s) (quiet : Quiet s) (running : s.running = some t) :
    s.pc t ≠ .blocked := fun blocked =>
  not_reader inv.wellFormed (mem_running running) (by decide)
    (quiet.subset ((inv.queued t).mpr blocked))

/-- With interrupts enabled nobody has a turn. -/
theorem Inv.quiet (inv : Inv s) (enabled : s.interrupts = true) : Quiet s := by
  rcases inv.phase with quiet | ⟨t, turn⟩
  · exact quiet
  · have blocked : s.pc t = .blocked := (inv.queued t).mp (turn.queue ▸ List.mem_cons_self)
    rw [State.interrupts, turn.running, Option.all_some, blocked] at enabled
    cases enabled

/-- A running holder is not among the readers, so these are the queue. -/
theorem Inv.readers_eq (inv : Inv s) (quiet : Quiet s) (running : s.running = some t)
    (inside : s.inside t) : readers s.k = s.queue := by
  rcases quiet.list with list | ⟨u, waits, list⟩
  · exact list
  · have holder : s.inside u := by rw [State.inside, waits]; rfl
    obtain rfl := inv.alone t u inside holder
    have reader : t ∈ readers s.k := list ▸ List.mem_cons_self
    exact absurd reader (not_reader inv.wellFormed (mem_running running) (by decide))

/-! ### Steps -/

theorem inside_goto_self (s : State) (t : Thread) (pc : Pc) :
    (s.goto t pc).inside t ↔ pc.inside = true := by
  simp only [State.inside, State.goto, Function.update_self]

theorem inside_goto_other {u : Thread} (other : u ≠ t) (pc : Pc) :
    (s.goto t pc).inside u ↔ s.inside u := by
  simp only [State.inside, State.goto, Function.update_of_ne other]

theorem pc_goto_self (s : State) (t : Thread) (pc : Pc) : (s.goto t pc).pc t = pc :=
  Function.update_self ..

theorem pc_goto_other {u : Thread} (other : u ≠ t) (pc : Pc) : (s.goto t pc).pc u = s.pc u :=
  Function.update_of_ne other ..

/-- The running thread goes on inside, or outside, of the lock. -/
theorem Inv.goto (inv : Inv s) (quiet : Quiet s) (running : s.running = some t) {pc : Pc}
    (same : pc.inside = (s.pc t).inside) (free : pc ≠ .blocked) : Inv (s.goto t pc) := by
  have out := not_reader inv.wellFormed (mem_running running) (by decide)
  have kept (u : Thread) : (s.goto t pc).inside u ↔ s.inside u := by
    by_cases self : u = t
    · subst self
      rw [inside_goto_self, same]
      rfl
    · exact inside_goto_other self pc
  have others : ∀ u ∈ readers s.k, (s.goto t pc).pc u = s.pc u := by
    intro u mem
    have other : u ≠ t := fun self => out (self ▸ mem)
    exact pc_goto_other other pc
  refine ⟨inv.wellFormed, fun u v first second => ?_, fun u => ?_, fun u mem => ?_, .inl ⟨?_, ?_, ?_⟩⟩
  · exact inv.alone u v ((kept u).mp first) ((kept v).mp second)
  · by_cases self : u = t
    · subst self
      rw [pc_goto_self]
      exact iff_of_false (fun mem => inv.not_blocked quiet running ((inv.queued u).mp mem)) free
    · rw [pc_goto_other self]
      exact inv.queued u
  · rw [others u mem]
    exact inv.first u mem
  · exact quiet.held.trans (exists_congr fun u => (kept u).symm)
  · refine quiet.list.imp_right fun ⟨u, waits, list⟩ => ⟨u, ?_, list⟩
    rw [others u (list ▸ List.mem_cons_self)]
    exact waits
  · exact quiet.free

/-- Threads that are not readers are moved. -/
theorem Inv.move (inv : Inv s) (quiet : Quiet s) {k : Threads} (wf : k.WellFormed)
    (list : readers k = readers s.k) (kept : ∀ u ∈ readers s.k, k.tcb u = s.k.tcb u) :
    Inv { s with k := k } := by
  refine ⟨wf, inv.alone, inv.queued, fun u mem => ?_, .inl ⟨quiet.held, ?_, quiet.free⟩⟩
  · have old : u ∈ readers s.k := list ▸ mem
    rw [kept u old]
    exact inv.first u old
  · dsimp only
    rw [list]
    exact quiet.list

/-- The running thread finds the lock free. -/
theorem Inv.acquire (inv : Inv s) (quiet : Quiet s) (running : s.running = some t)
    (free : s.locked = false) : Inv { s.goto t .check with locked := true } := by
  have nobody : ∀ u, ¬ s.inside u := fun u inside => by
    have held := quiet.held.mpr ⟨u, inside⟩
    rw [free] at held
    cases held
  have only (u : Thread) (inside : (s.goto t .check).inside u) : u = t := by
    by_contra other
    exact nobody u ((inside_goto_other other .check).mp inside)
  have list : readers s.k = s.queue := by
    refine quiet.list.resolve_right fun ⟨u, waits, _⟩ => nobody u ?_
    rw [State.inside, waits]
    rfl
  have empty := quiet.free free
  refine ⟨inv.wellFormed, fun u v first second => (only u first).trans (only v second).symm,
    fun u => ?_, fun u mem => ?_, .inl ⟨⟨fun _ => ⟨t, ?_⟩, fun _ => rfl⟩, .inl list, fun taken => nomatch taken⟩⟩
  · by_cases self : u = t
    · subst self
      refine iff_of_false (fun mem => ?_) (by rw [pc_goto_self]; nofun)
      exact inv.not_blocked quiet running ((inv.queued u).mp mem)
    · exact (inv.queued u).trans (by rw [pc_goto_other self])
  · have none : u ∈ s.queue := list ▸ mem
    rw [empty] at none
    cases none
  · exact (inside_goto_self s t .check).mpr rfl

/-- The thread whose turn it is takes the lock. -/
theorem Inv.take (inv : Inv s) (turn : Turn s t) :
    Inv { s.goto t .check with locked := true, queue := s.queue.erase t } := by
  have out := not_reader inv.wellFormed (mem_running turn.running) (by decide)
  have only (u : Thread) (inside : (s.goto t .check).inside u) : u = t := by
    by_contra other
    exact turn.nobody u ((inside_goto_other other .check).mp inside)
  have left : s.queue.erase t = readers s.k := by rw [turn.queue, List.erase_cons_head]
  refine ⟨inv.wellFormed, fun u v first second => (only u first).trans (only v second).symm,
    fun u => ?_, fun u mem => ?_,
    .inl ⟨⟨fun _ => ⟨t, ?_⟩, fun _ => rfl⟩, .inl left.symm, fun taken => nomatch taken⟩⟩
  · dsimp only
    rw [left]
    by_cases self : u = t
    · subst self
      exact iff_of_false out (by rw [pc_goto_self]; nofun)
    · rw [pc_goto_other self, ← inv.queued u, turn.queue, List.mem_cons]
      exact (or_iff_right self).symm
  · have other : u ≠ t := fun same => out (same ▸ mem)
    exact (inv.first u mem).trans (by rw [pc_goto_other other])
  · exact (inside_goto_self s t .check).mpr rfl

/-- The lock is taken, and the running thread blocks behind all that have blocked. -/
theorem Inv.block (inv : Inv s) (quiet : Quiet s) (running : s.running = some t)
    (here : s.pc t = .arrive) (taken : s.locked = true) {u : Thread}
    (ready : u ∈ s.k.lists (.state .ready)) :
    Inv { s.goto t .blocked with
      k := s.k.switchContext u .waiting (some (.readline false))
      queue := s.queue ++ [t] } := by
  obtain ⟨rest, cons⟩ := running_cons running
  obtain ⟨list, detail, kept⟩ := readers_block inv.wellFormed false cons ready
  have out := not_reader inv.wellFormed (mem_running running) (by decide)
  have kept' (v : Thread) : (s.goto t .blocked).inside v ↔ s.inside v := by
    by_cases self : v = t
    · subst self
      rw [inside_goto_self, State.inside, here]
      exact iff_of_false nofun nofun
    · exact inside_goto_other self .blocked
  refine ⟨inv.wellFormed.switchContext u .waiting (some (.readline false)), fun v w first second => ?_, fun v => ?_, fun v mem => ?_,
    .inl ⟨⟨fun _ => ?_, fun _ => taken⟩, ?_, fun free => ?_⟩⟩
  · exact inv.alone v w ((kept' v).mp first) ((kept' w).mp second)
  · dsimp only
    rw [List.mem_append, List.mem_singleton]
    by_cases self : v = t
    · subst self
      exact iff_of_true (.inr rfl) (pc_goto_self s v .blocked)
    · rw [pc_goto_other self, ← inv.queued v]
      exact or_iff_left self
  · rw [list] at mem
    dsimp only
    by_cases self : v = t
    · subst self
      rw [detail, pc_goto_self]
      rfl
    · have old : v ∈ readers s.k := by
        rw [blockedReaders, if_neg Bool.false_ne_true, List.mem_append, List.mem_singleton] at mem
        exact mem.resolve_right self
      rw [kept v old, pc_goto_other self]
      exact inv.first v old
  · obtain ⟨v, inside⟩ := quiet.held.mp taken
    exact ⟨v, (kept' v).mpr inside⟩
  · dsimp only
    rw [list, blockedReaders, if_neg Bool.false_ne_true]
    rcases quiet.list with same | ⟨v, waits, same⟩
    · exact .inl (by rw [same])
    · have other : v ≠ t := fun self => by
        rw [self, here] at waits
        cases waits
      exact .inr ⟨v, (pc_goto_other other _).trans waits, by rw [same]; rfl⟩
  · cases taken.symm.trans free

/-- The holder finds no character and waits as the first reader. -/
theorem Inv.wait (inv : Inv s) (quiet : Quiet s) (running : s.running = some t)
    (inside : s.inside t) {u : Thread} (ready : u ∈ s.k.lists (.state .ready)) :
    Inv { s.goto t .wait with k := s.k.switchContext u .waiting (some (.readline true)) } := by
  obtain ⟨rest, cons⟩ := running_cons running
  obtain ⟨list, detail, kept⟩ := readers_block inv.wellFormed true cons ready
  have whole := inv.readers_eq quiet running inside
  have waiting := inv.goto quiet running (show Pc.wait.inside = (s.pc t).inside from inside.symm) nofun
  refine ⟨inv.wellFormed.switchContext u .waiting (some (.readline true)), waiting.alone, waiting.queued, fun v mem => ?_,
    .inl ⟨⟨fun _ => ⟨t, (inside_goto_self s t .wait).mpr rfl⟩, fun _ => quiet.held.mpr ⟨t, inside⟩⟩,
      .inr ⟨t, pc_goto_self s t .wait, ?_⟩, quiet.free⟩⟩
  · rw [list] at mem
    dsimp only
    by_cases self : v = t
    · subst self
      rw [detail, pc_goto_self]
      rfl
    · have old : v ∈ readers s.k := (List.mem_cons.mp mem).resolve_left self
      rw [kept v old, pc_goto_other self]
      exact inv.first v old
  · dsimp only
    rw [list, whole]
    rfl

theorem outside_released (inv : Inv s) (inside : s.inside t) (u : Thread) :
    ¬ (s.goto t .released).inside u := fun other => by
  by_cases self : u = t
  · subst self
    rw [inside_goto_self] at other
    cases other
  · exact self (inv.alone u t ((inside_goto_other self _).mp other) inside)

/-- Nobody has blocked when the holder gives the lock up. -/
theorem Inv.release (inv : Inv s) (quiet : Quiet s) (running : s.running = some t)
    (inside : s.inside t) (none : readers s.k = []) :
    Inv { s.goto t .released with locked := false } := by
  have nobody := outside_released inv inside
  have empty : s.queue = [] := (inv.readers_eq quiet running inside).symm.trans none
  have gone : s.pc t ≠ .blocked := inv.not_blocked quiet running
  refine ⟨inv.wellFormed, fun u _ first _ => absurd first (nobody u), fun u => ?_, fun u mem => ?_,
    .inl ⟨⟨nofun, fun ⟨u, first⟩ => absurd first (nobody u)⟩, .inl (none.trans empty.symm),
      fun _ => empty⟩⟩
  · by_cases self : u = t
    · subst self
      rw [pc_goto_self]
      exact iff_of_false (fun mem => gone ((inv.queued u).mp mem)) nofun
    · rw [pc_goto_other self]
      exact inv.queued u
  · have old : u ∈ readers s.k := mem
    rw [none] at old
    cases old

/-- The holder hands the lock over to the first that has blocked. -/
theorem Inv.handOver (inv : Inv s) (quiet : Quiet s) (running : s.running = some t)
    (inside : s.inside t) {h : Thread} {tail : List Thread} (list : readers s.k = h :: tail) :
    Inv { s.goto t .released with locked := false, k := s.k.switchContext h .ready none } := by
  obtain ⟨rest, cons⟩ := running_cons running
  obtain ⟨left, front, kept⟩ := readers_wake inv.wellFormed cons list
  have nobody := outside_released inv inside
  have whole := inv.readers_eq quiet running inside
  have out := not_reader inv.wellFormed (mem_running running) (by decide)
  have gone : s.pc t ≠ .blocked := inv.not_blocked quiet running
  refine ⟨inv.wellFormed.switchContext h .ready none, fun u _ first _ => absurd first (nobody u), fun u => ?_,
    fun u mem => ?_, .inr ⟨h, front, ?_, rfl, nobody⟩⟩
  · by_cases self : u = t
    · subst self
      rw [pc_goto_self]
      exact iff_of_false (fun mem => gone ((inv.queued u).mp mem)) nofun
    · rw [pc_goto_other self]
      exact inv.queued u
  · rw [left] at mem
    have old : u ∈ readers s.k := list ▸ List.mem_cons_of_mem h mem
    have other : u ≠ t := fun self => out (self ▸ old)
    dsimp only
    rw [kept u mem, pc_goto_other other]
    exact inv.first u old
  · dsimp only
    rw [left, ← list, whole]
    rfl

theorem Inv.keyboard (inv : Inv s) (quiet : Quiet s) : Inv { s with k := handleKeyboard s.k } := by
  unfold handleKeyboard
  cases list : readers s.k with
  | nil => exact inv
  | cons h tail =>
      dsimp only
      cases first : (s.k.tcb h).detail.firstReader with
      | false => exact inv
      | true =>
          rw [if_pos rfl]
          cases running : s.running with
          | none =>
              have stays : s.k.switchContext h .ready none = s.k := by
                rw [Threads.switchContext, if_neg (by simp), List.head?_eq_none_iff.mp running]
              rw [stays]
              exact inv
          | some t =>
              obtain ⟨rest, cons⟩ := running_cons running
              obtain ⟨left, -, kept⟩ := readers_wake inv.wellFormed cons list
              have waits : s.pc h = .wait := by
                have flag := inv.first h (list ▸ List.mem_cons_self)
                rw [first] at flag
                exact of_decide_eq_true flag.symm
              have whole : tail = s.queue := by
                rcases quiet.list with same | ⟨u, -, same⟩
                · have blocked : h ∈ s.queue := by rw [← same, list]; exact List.mem_cons_self
                  rw [inv.queued, waits] at blocked
                  cases blocked
                · rw [list] at same
                  exact (List.cons.inj same).2
              refine ⟨inv.wellFormed.switchContext h .ready none, inv.alone, inv.queued, fun u mem => ?_,
                .inl ⟨quiet.held, .inl (left.trans whole), quiet.free⟩⟩
              rw [left] at mem
              dsimp only
              rw [kept u mem]
              exact inv.first u (list ▸ List.mem_cons_of_mem h mem)

theorem ready_of_choice {k : Threads} {choice : Option Thread} {u : Thread}
    (found : findNextThread k choice = some u) : u ∈ k.lists (.state .ready) :=
  of_decide_eq_true (Option.filter_eq_some_iff.mp found).2

theorem Inv.advance (inv : Inv s) (running : s.running = some t) (data : Bool)
    (choice : Option Thread) : Inv (s.advance t data choice) := by
  rcases inv.phase with quiet | ⟨u, turn⟩
  swap
  · obtain rfl : u = t := Option.some.inj (turn.running.symm.trans running)
    have blocked : s.pc u = .blocked := (inv.queued u).mp (turn.queue ▸ List.mem_cons_self)
    rw [State.advance.eq_def, blocked]
    exact inv.take turn
  rw [State.advance.eq_def]
  cases here : s.pc t with
  | user => exact inv
  | arrive =>
      dsimp only
      split
      · rename_i taken
        split
        · exact inv
        · rename_i u found
          exact inv.block quiet running here taken (ready_of_choice found)
      · rename_i free
        exact inv.acquire quiet running (by simpa using free)
  | blocked => exact absurd here (inv.not_blocked quiet running)
  | check =>
      dsimp only
      split
      · exact inv.goto quiet running (by rw [here]; rfl) nofun
      · exact inv.goto quiet running (by rw [here]; rfl) nofun
  | extract =>
      have inside : s.inside t := by rw [State.inside, here]; rfl
      dsimp only
      split
      · exact inv.goto quiet running (by rw [here]; rfl) nofun
      · split
        · exact inv
        · rename_i u found
          exact inv.wait quiet running inside (ready_of_choice found)
  | wait => exact inv.goto quiet running (by rw [here]; rfl) nofun
  | echo =>
      dsimp only
      split
      · exact inv.goto quiet running (by rw [here]; rfl) nofun
      · exact inv.goto quiet running (by rw [here]; rfl) nofun
  | release =>
      have inside : s.inside t := by rw [State.inside, here]; rfl
      dsimp only
      split
      · rename_i none
        exact inv.release quiet running inside none
      · rename_i h tail list
        exact inv.handOver quiet running inside list
  | released => exact inv.goto quiet running (by rw [here]; rfl) nofun

theorem Inv.step (inv : Inv s) (i : Input) : Inv (s.step i) := by
  unfold State.step
  cases i with
  | advance data choice =>
      dsimp only
      split
      · rename_i t running
        exact inv.advance running data choice
      · exact inv
  | call =>
      dsimp only
      split
      · rename_i t running
        split
        · rename_i here
          rcases inv.phase with quiet | ⟨u, turn⟩
          · exact inv.goto quiet running (by rw [here]; rfl) nofun
          · obtain rfl : u = t := Option.some.inj (turn.running.symm.trans running)
            have blocked := (inv.queued u).mp (turn.queue ▸ List.mem_cons_self)
            rw [here] at blocked
            cases blocked
        · exact inv
      · exact inv
  | preempt u =>
      dsimp only
      split
      · rename_i enabled
        obtain ⟨list, kept⟩ := readers_preempt inv.wellFormed enabled.2
        exact inv.move (inv.quiet enabled.1) (inv.wellFormed.switchContext u .ready none) list kept
      · exact inv
  | keyboard =>
      dsimp only
      split
      · rename_i enabled
        exact inv.keyboard (inv.quiet enabled)
      · exact inv
  | alter u state detail =>
      dsimp only
      split
      · rename_i enabled
        obtain ⟨list, kept⟩ := readers_alter state _ enabled.2.1 enabled.2.2
        exact inv.move (inv.quiet enabled.1) (inv.wellFormed.alter u state detail) list kept
      · exact inv

/-! ### One at a time, and in order -/

/-- Whoever gets the lock in a step is the first that has blocked, or nobody has. -/
def Served (s : State) (i : Input) : Prop :=
  ∀ t, ¬ s.inside t → (s.step i).inside t → s.queue = [] ∨ s.queue.head? = some t

/-- A step of a thread leaves the others where they are. -/
theorem pc_advance {u : Thread} (other : u ≠ t) (data : Bool) (choice : Option Thread) :
    (s.advance t data choice).pc u = s.pc u := by
  have kept (pc : Pc) := pc_goto_other (s := s) other pc
  rw [State.advance.eq_def]
  cases s.pc t with
  | user => rfl
  | arrive =>
      dsimp only
      split
      · split
        · rfl
        · exact kept _
      · exact kept _
  | check | echo => cases data <;> exact kept _
  | extract =>
      dsimp only
      split
      · exact kept _
      · split
        · rfl
        · exact kept _
  | release =>
      dsimp only
      split
      · exact kept _
      · exact kept _
  | _ => exact kept _

/-- A thread that gets the lock in its own step. -/
theorem Inv.served_self (inv : Inv s) (running : s.running = some t) (data : Bool)
    (choice : Option Thread) (outside : ¬ s.inside t) (inside : (s.advance t data choice).inside t) :
    s.queue = [] ∨ s.queue.head? = some t := by
  rcases inv.phase with quiet | ⟨u, turn⟩
  swap
  · obtain rfl : u = t := Option.some.inj (turn.running.symm.trans running)
    rw [turn.queue]
    exact .inr rfl
  rw [State.advance.eq_def] at inside
  rw [State.inside] at outside
  cases here : s.pc t with
  | user =>
      rw [here] at inside
      exact absurd inside outside
  | arrive =>
      cases taken : s.locked with
      | false => exact .inl (quiet.free taken)
      | true =>
          rw [here, taken] at inside
          dsimp only at inside
          rw [if_pos rfl] at inside
          split at inside
          · exact absurd inside outside
          · cases (inside_goto_self s t .blocked).mp inside
  | blocked => exact absurd here (inv.not_blocked quiet running)
  | released =>
      rw [here] at inside
      cases (inside_goto_self s t .user).mp inside
  | _ => exact absurd (by rw [here]; rfl) outside

theorem Inv.served (inv : Inv s) (i : Input) : Served s i := by
  intro t outside inside
  cases i with
  | advance data choice =>
      rw [State.step] at inside
      split at inside
      · rename_i u running
        by_cases self : t = u
        · subst self
          exact inv.served_self running data choice outside inside
        · rw [State.inside, pc_advance self] at inside
          exact absurd inside outside
      · exact absurd inside outside
  | call =>
      rw [State.step] at inside
      split at inside
      · rename_i u running
        split at inside
        · by_cases self : t = u
          · subst self
            cases (inside_goto_self s t .arrive).mp inside
          · exact absurd ((inside_goto_other self .arrive).mp inside) outside
        · exact absurd inside outside
      · exact absurd inside outside
  | preempt u =>
      rw [State.step] at inside
      split at inside <;> exact absurd inside outside
  | keyboard =>
      rw [State.step] at inside
      split at inside <;> exact absurd inside outside
  | alter u state detail =>
      rw [State.step] at inside
      split at inside <;> exact absurd inside outside

/-- In every run at most one thread is between acquiring the lock and releasing it, the
queue holds the threads that have blocked, and whoever gets the lock is the first of them. -/
theorem readers_in_order (s : State) (wf : s.k.WellFormed) (start : ∀ t, s.pc t = .user)
    (free : s.locked = false) (none : readers s.k = []) (empty : s.queue = []) (is : List Input) :
    Along State.step (fun s => (∀ t u, s.inside t → s.inside u → t = u) ∧
      ∀ t, t ∈ s.queue ↔ s.pc t = .blocked) s is ∧ StepsMeet State.step Served s is := by
  have nobody (t : Thread) : ¬ s.inside t := by
    rw [State.inside, start t]
    exact Bool.false_ne_true
  have inv : Inv s :=
    { wellFormed := wf
      alone := fun t _ inside _ => absurd inside (nobody t)
      queued := fun t => by
        rw [empty, start t]
        exact iff_of_false List.not_mem_nil nofun
      first := fun t mem => by
        rw [none] at mem
        cases mem
      phase := .inl
        { held := by
            rw [free]
            exact iff_of_false nofun fun ⟨t, inside⟩ => nobody t inside
          list := .inl (none.trans empty.symm)
          free := fun _ => empty } }
  have along : Along State.step Inv s is := along_of_invariant (fun _ i inv => inv.step i) inv is
  exact ⟨along.mono fun _ inv => ⟨inv.alone, inv.queued⟩,
    stepsMeet_of_along (fun _ i inv _ => inv.served i) along⟩

end

/-- Thread 0 runs, threads 1, 2 and 3 are ready. -/
def fourThreads : State where
  k :=
    { tcb := fun t => ⟨t, t, if t = 0 then .running else .ready, .deschedule⟩
      lists := fun
        | .state .running => [0]
        | .state .ready => [1, 2, 3]
        | _ => [] }
  locked := false
  pc := fun _ => .user
  queue := []

theorem wellFormed_fourThreads : fourThreads.k.WellFormed := by
  refine ⟨fun i => ?_, fun i t mem => ?_⟩
  · rcases i with (_ | _ | _ | _ | _) | _ <;> simp [fourThreads]
  · rcases i with (_ | _ | _ | _ | _) | _ <;> simp [fourThreads] at mem ⊢
    · rcases mem with rfl | rfl | rfl <;> decide
    · subst mem
      decide

/-- Thread 0 gets the lock; threads 2 and 1 block on it; 0 waits for a character, is woken
up by the keyboard, reads a newline and hands the lock over. -/
def session : List Input :=
  [.call, .advance false none, .preempt 2, .call, .advance false (some 1), .call,
    .advance false (some 0), .advance false none, .advance false (some 3), .keyboard,
    .advance false none, .advance true none, .advance true none, .advance false none,
    .advance false none]

theorem readers_in_order_four :
    ((run State.step fourThreads (session.take 9)).queue = [2, 1] ∧
      readers (run State.step fourThreads (session.take 9)).k = [0, 2, 1] ∧
      (run State.step fourThreads session).pc 2 = .check) ∧
    Along State.step (fun s => (∀ t u, s.inside t → s.inside u → t = u) ∧
      ∀ t, t ∈ s.queue ↔ s.pc t = .blocked) fourThreads session ∧
      StepsMeet State.step Served fourThreads session :=
  ⟨by decide +kernel, readers_in_order fourThreads wellFormed_fourThreads (fun _ => rfl) rfl rfl rfl session⟩

end OsKernel.Sched.Readline
