import CellMachine.Proofs.FailedAccess
import CellMachine.Proofs.FaultSafety

/-!
# The states of a memory

A memory is created with a block of some size, and from then on its cells are read and written by a
host, by programs that run on it, or by both in turn. What happens to it is a list of events
(`MemoryEvent`), and its states are those that the events lead to (`Machine.afterEvents`).

Whatever happens, the block keeps its size, it holds words, and once it was given back it stays so
(`Machine.ofWords_afterEvents`). For the events that execute instructions this is a discipline that
admits all of them, whatever their operands are (`wordBlock`).
-/

namespace CellMachine

open Exec

/-- The machine that an action leaves, whether or not it fails. -/
def Exec.left {α : Type} (x : Exec α) (m : Machine) : Machine :=
  match x m with
  | .ok _ m' => m'
  | .error _ m' => m'

/-- What holds of both outcomes of an action holds of the machine that it leaves. -/
theorem Exec.Ends.left {α : Type} {x : Exec α} {m : Machine} {Q : Machine → Prop}
    (h : Ends x m (fun _ => Q) (fun _ => Q)) : Q (Exec.left x m) := by
  unfold Exec.left
  cases hx : x m with
  | ok a m' => exact h.ok hx
  | error fault m' => exact h.error hx

/-- What happens to a memory: a host accesses it or sets what is not in the block, a program takes a
step or runs on it, or it is given back. -/
inductive MemoryEvent where
  | access (op : MemoryOperation)
  | store (o : Operand) (v : Int)
  | storeValue (o : Operand) (v : Value)
  | setRegisters (r : RegisterFile)
  | setFlags (n : Int)
  | setRemainder (n : Int)
  | createStack (size : Int)
  | step (p : Program) (w : Monitor)
  | run (p : Program) (w : Monitor) (rounds : Nat)
  | release

/-- The machine after an event. -/
def MemoryEvent.on (m : Machine) : MemoryEvent → Machine
  | .access op => left op.perform m
  | .store o v => left (Machine.store o v) m
  | .storeValue o v => left (Machine.storeValue o v) m
  | .setRegisters r => { m with registers := r }
  | .setFlags n => { m with flags := n }
  | .setRemainder n => { m with remainder := n }
  | .createStack size => m.createStack size
  | .step p w =>
    match Session.step p ⟨m, w⟩ with
    | .ok () s => s.machine
    | .error _ s => s.machine
  | .run p w rounds => (Run.after p rounds (Run.start p ⟨m, w⟩)).session.machine
  | .release => m.release

namespace Machine

/-- The machine after some events. -/
def afterEvents (m : Machine) (events : List MemoryEvent) : Machine :=
  events.foldl MemoryEvent.on m

/-- A block of a given size that holds words; it may have been given back. -/
structure OfWords (count : Nat) (released : Bool) (m : Machine) : Prop where
  count : m.cellCount = count
  released : m.released = released
  words : ∀ c, Word.InRange (m.cells.get c)

variable {count : Nat} {released : Bool} {m : Machine}

/-- A cell may be set to a word. -/
theorem OfWords.setCell (h : m.OfWords count released) (c : Nat) (v : Int) :
    OfWords count released { m with cells := m.cells.set c (Word.wrap v) } where
  count := h.count
  released := h.released
  words d := by
    rw [Cells.get_set]
    split
    · exact Word.wrap_inRange v
    · exact h.words d

/-- A fresh block holds zeros, and is held. -/
theorem ofWords_create {size : Int} {checked : Bool} (h : create size checked = .ok m) :
    m.OfWords m.cellCount false ∧ (m.cellCount : Int) ≤ sizeLimit := by
  obtain ⟨hlimit, rfl⟩ := create_eq_ok h
  refine ⟨⟨rfl, rfl, fun c => ?_⟩, ?_⟩
  · rw [Cells.get_zero]
    decide
  · show ((size / wordSize).toNat : Int) ≤ sizeLimit
    unfold wordSize
    unfold sizeLimit at hlimit ⊢
    omega

end Machine

open Machine

/-- All instructions keep a block of words, also those that fail. -/
def wordBlock (count : Nat) (released : Bool) : Discipline where
  inv m := m.OfWords count released
  fault _ m := m.OfWords count released
  source _ := True
  target _ := True
  value _ := True
  outside _ hm := hm
  at_end hm := hm
  untraceable hm _ _ _ := hm
  read_fault hm _ _ := hm
  read_value _ _ _ := trivial
  word_value _ := trivial
  write_fault hm _ _ := hm
  write_register hm _ _ h := by
    obtain ⟨s, -, rfl⟩ := registerSet_eq_ok h
    exact { hm with }
  write_cell hm _ h := by
    obtain ⟨c, -, rfl⟩ := cellSet_eq_ok h
    exact hm.setCell c _
  push {m} n hm := by
    -- the stack pointer is no part of the block, so it does not matter when it moves
    have hmoved : (m.setSp (m.registers.sp - 1)).OfWords count released := { hm with }
    exact ends_push (fun _ _ => hm) (fun _ _ => hmoved) fun c _ => hmoved.setCell c n
  pop hm := ends_pop (fun _ _ => hm) (fun _ _ => hm) fun _ _ => { hm with }
  setIp _ hm := { hm with }
  remainder hm _ := { hm with }
  flags _ _ hm := { hm with }
  printed _ hm := { hm with }
  unprintable hm _ _ _ := hm
  zero_divisor hm := hm
  zero_modulus hm := hm

variable {count : Nat} {released : Bool} {m : Machine}

/-- Every program is admitted: its operands do not matter, and neither does how many there are. -/
theorem wordBlock_admitsProgram (p : Program) : (wordBlock count released).AdmitsProgram p := by
  intro ins _ _
  refine ⟨Or.inr ⟨fun _ _ => trivial, fun _ hm => hm⟩, ?_⟩
  rintro ⟨kind, o⟩ -
  cases kind with
  | target => trivial
  | source => trivial

/-- A host that accesses the block does what an instruction does, and keeps it as one does. -/
theorem MemoryOperation.ofWords_perform (h : m.OfWords count released) (op : MemoryOperation) :
    Ends op.perform m (fun _ => OfWords count released) (fun _ => OfWords count released) := by
  cases op with
  | read i => exact ends_load_bind (o := .cell i) (fun _ _ => h) fun _ _ => h
  | write i v =>
    have hstore : (wordBlock count released).Keeps (Machine.store (.cell i) v) m :=
      Discipline.keeps_store h trivial v
    exact hstore.bind fun _ _ hm => hm
  | push v => exact ((wordBlock count released).push v h).bind fun _ _ hm => hm
  | pop => exact ((wordBlock count released).pop h).bind fun _ _ hm => hm

/-- **One event** keeps the block of words. It is given back by one kind of event, and by no event
is it taken again. -/
theorem MemoryEvent.ofWords_on (h : m.OfWords count released) (e : MemoryEvent) :
    (e.on m).OfWords count released ∨ (e.on m).OfWords count true := by
  cases e with
  -- the host reaches the block by a store, and everything else by leaving it alone
  | access op => exact Or.inl (op.ofWords_perform h).left
  | store o v =>
    have hstore : (wordBlock count released).Keeps (Machine.store o v) m :=
      Discipline.keeps_store h trivial v
    exact Or.inl (Ends.left hstore)
  | storeValue o v =>
    have hstore : (wordBlock count released).Keeps (Machine.storeValue o v) m :=
      Discipline.keeps_storeValue h trivial trivial
    exact Or.inl (Ends.left hstore)
  | setRegisters r => exact Or.inl { h with }
  | setFlags n => exact Or.inl { h with }
  | setRemainder n => exact Or.inl { h with }
  | createStack size => exact Or.inl { h with }
  | step p w =>
    left
    have hstep := Discipline.step (D := wordBlock count released) (w := w) h
      (wordBlock_admitsProgram p)
    show OfWords count released
      (match Session.step p ⟨m, w⟩ with
      | .ok () s => s.machine
      | .error _ s => s.machine)
    -- the block is kept also by a step that fails
    generalize Session.step p ⟨m, w⟩ = result at hstep ⊢
    cases result with
    | ok a s => exact hstep
    | error fault s => exact hstep
  | run p w rounds =>
    left
    have hafter := Discipline.after (D := wordBlock count released)
      (.start (s := ⟨m, w⟩) h p) (wordBlock_admitsProgram p) rounds
    unfold MemoryEvent.on
    -- the block is kept however the run has gone
    unfold Discipline.InOrder at hafter
    split at hafter
    · exact hafter
    · exact hafter
  | release =>
    -- what a block holds after it was given back is taken to be zeros
    right
    refine ⟨h.count, rfl, fun c => ?_⟩
    show Word.InRange (Cells.zero.get c)
    rw [Cells.get_zero]
    decide

/-- **All events** keep the block of words. If it is held after them, it was held before. -/
theorem Machine.ofWords_afterEvents (h : m.OfWords count released) (events : List MemoryEvent) :
    ∃ released', (m.afterEvents events).OfWords count released' ∧
      (released = true → released' = true) := by
  -- the first event is taken off, and whether the block is held may have changed by it
  induction events generalizing m released with
  | nil => exact ⟨released, h, id⟩
  | cons e events ih =>
    rcases e.ofWords_on h with hkept | hgiven
    · exact ih hkept
    · obtain ⟨released', hwords, hstays⟩ := ih hgiven
      exact ⟨released', hwords, fun _ => hstays rfl⟩

end CellMachine
