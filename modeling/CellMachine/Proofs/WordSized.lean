import CellMachine.Proofs.Effects
import CellMachine.Proofs.Histories

/-!
# Machine values are words

Numbers are integers of any size, and not everything that stores one wraps it: the stack pointer
is set to any cell, and a move copies a register as it is. Still no value of a machine outgrows the
signed 32-bit words, if its block has no more cells than there are positive words
(`Machine.WordSized`). For the stack pointer the reason is the access that goes with its move. A
push that succeeds has written the cell that the stack pointer then refers to, and a pop that
succeeds has read the one before it, so either lies in the block. A failure gives no such bound;
the promise is made to a host that stops there.

A move may leave an address in the instruction pointer. The run replaces it by an integer before it
looks at the next instruction (`Run.ip_int_of_running`).
-/

namespace CellMachine

/-- A comparison has one of three results. -/
theorem Word.compare_eq (a b : Int) : compare a b = 0 ∨ compare a b = 1 ∨ compare a b = 2 := by
  unfold compare
  rcases Int.lt_trichotomy a b with h | h | h
  · rw [if_neg (by omega), if_neg (by omega)]
    exact Or.inl rfl
  · rw [if_pos h, if_neg (by omega)]
    exact Or.inr (Or.inl rfl)
  · rw [if_neg (by omega), if_pos h]
    exact Or.inr (Or.inr rfl)

/-- A remainder is wrapped, so that it is a word. -/
theorem Word.mod?_inRange {a b r : Int} (h : mod? a b = some r) : InRange r := by
  unfold mod? at h
  split at h
  · cases h
  · obtain rfl := Option.some.inj h
    exact wrap_inRange _

namespace Machine

/-- **Machine values are words**: registers, cells and the remainder. The flags are those of a
comparison, so that equal and greater are never both set. -/
structure WordSized (m : Machine) : Prop where
  registers : ∀ s, Word.InRange (m.registers.readInt s)
  cells : ∀ c, Word.InRange (m.cells.get c)
  remainder : Word.InRange m.remainder
  flags : m.flags = 0 ∨ m.flags = 1 ∨ m.flags = 2

variable {m : Machine}

/-- A register may be set to a word. -/
theorem WordSized.setRegister (h : m.WordSized) (s : Slot) {v : Value} (hv : Word.InRange v.toInt) :
    WordSized { m with registers := m.registers.set s v } where
  registers t := by
    unfold RegisterFile.readInt
    by_cases hst : s = t
    · subst hst
      rw [RegisterFile.get_set_self]
      exact hv
    · rw [RegisterFile.get_set_of_ne _ _ hst]
      exact h.registers t
  cells := h.cells
  remainder := h.remainder
  flags := h.flags

/-- A cell may be set to anything, as what is stored is wrapped. -/
theorem WordSized.setCell (h : m.WordSized) (c : Nat) (n : Int) :
    WordSized { m with cells := m.cells.set c (Word.wrap n) } where
  registers := h.registers
  cells d := by
    rw [Cells.get_set]
    split
    · exact Word.wrap_inRange n
    · exact h.cells d
  remainder := h.remainder
  flags := h.flags

/-- What an operand refers to is a word. -/
theorem WordSized.taggedOf (h : m.WordSized) {o : Operand} (ho : Operand.WellFormed .source o)
    {v : Value} (hv : m.taggedOf o = .ok v) : Word.InRange v.toInt := by
  rcases taggedOf_eq_ok hv with ⟨s, rfl⟩ | ⟨c, rfl⟩ | ⟨n, rfl, rfl⟩
  · exact h.registers s
  · exact h.cells c
  · exact ho

/-- What an operand refers to is a word. -/
theorem WordSized.valueOf (h : m.WordSized) {o : Operand} (ho : Operand.WellFormed .source o)
    {v : Int} (hv : m.valueOf o = .ok v) : Word.InRange v := by
  rw [valueOf_eq_map] at hv
  cases ht : m.taggedOf o with
  | ok t =>
    rw [ht] at hv
    obtain rfl := Except.ok.inj hv
    exact h.taggedOf ho ht
  | error fault =>
    rw [ht] at hv
    cases hv

/-- An index that refers to a cell of a block of such a size is a word, and so are the indices
next to it on either side of the block. -/
theorem inRange_of_locate {whenReleased : Fault} {i : Int} {c : Nat}
    (hcount : (m.cellCount : Int) ≤ Word.maximum) (h : m.locate whenReleased i = .ok c) :
    Word.InRange i ∧ Word.InRange (i + 1) := by
  obtain ⟨-, hlow, hhigh, -⟩ := locate_eq_ok h
  unfold Word.InRange
  unfold Word.maximum Word.minimum at *
  omega

end Machine

open Machine

/-- Instructions that succeed keep the values of a machine words. -/
def wordSized : Discipline where
  inv m := m.WordSized ∧ (m.cellCount : Int) ≤ Word.maximum
  fault _ _ := True
  source o := Operand.WellFormed .source o
  target o := Operand.WellFormed .target o
  value v := Word.InRange v.toInt
  outside _ _ := trivial
  at_end _ := trivial
  untraceable _ _ _ _ := trivial
  read_fault _ _ _ := trivial
  read_value hm ho hv := hm.1.taggedOf ho hv
  word_value n := Word.wrap_inRange n
  write_fault _ _ _ := trivial
  write_register hm _ hv h := by
    obtain ⟨s, -, rfl⟩ := registerSet_eq_ok h
    exact ⟨hm.1.setRegister s hv, hm.2⟩
  write_cell hm _ h := by
    obtain ⟨c, -, rfl⟩ := cellSet_eq_ok h
    exact ⟨hm.1.setCell c _, hm.2⟩
  push n hm := by
    refine Exec.ends_push (fun _ _ => trivial) (fun _ _ => trivial) fun c hc => ⟨?_, hm.2⟩
    -- the cell that was written bounds the stack pointer
    have hsp := (inRange_of_locate hm.2 hc).1
    exact (hm.1.setRegister Slot.sp (v := .address _) hsp).setCell c n
  pop hm := by
    refine Exec.ends_pop (fun _ _ => trivial) (fun _ _ => trivial) fun c hc => ⟨?_, hm.2⟩
    have hsp := (inRange_of_locate hm.2 hc).2
    exact hm.1.setRegister Slot.sp (v := .address _) hsp
  setIp index hm := ⟨hm.1.setRegister Slot.ip (Word.wrap_inRange index), hm.2⟩
  remainder hm hr := ⟨{ hm.1 with remainder := Word.mod?_inRange hr }, hm.2⟩
  flags a b hm := ⟨{ hm.1 with flags := Word.compare_eq a b }, hm.2⟩
  printed _ hm := ⟨{ hm.1 with }, hm.2⟩
  unprintable _ _ _ _ := trivial
  zero_divisor _ := trivial
  zero_modulus _ := trivial

/-- Validated programs keep to words. -/
theorem wordSized_admitsProgram {p : Program} (hp : p.validate = .ok ()) :
    wordSized.AdmitsProgram p := by
  intro ins hins hstop
  refine Discipline.admits_of_wellFormed (Program.wellFormed_of_validate hp hins hstop) ?_
  rintro ⟨kind, o⟩ - ho
  cases kind with
  | target => exact ho
  | source => exact ho

/-- The machine of a fresh context. -/
theorem Layout.machine_wordSized {l : Layout} (hl : (l.machine.cellCount : Int) ≤ Word.maximum) :
    l.machine.WordSized := by
  have htop : Word.InRange (l.machine.cellCount : Int) := by
    unfold Word.InRange
    unfold Word.maximum Word.minimum at *
    omega
  have hblank : WordSized
      { cellCount := l.machine.cellCount, checked := l.checked, stackSize := l.stackSize } :=
    { registers := fun s => by
        unfold RegisterFile.readInt
        rw [RegisterFile.get_initial]
        decide
      cells := fun c => by
        rw [Cells.get_zero]
        decide
      remainder := (by decide : Word.InRange 0)
      flags := Or.inl rfl }
  -- the stack base and the stack pointer are set one past the block
  exact (hblank.setRegister Slot.bp (v := .address _) htop).setRegister Slot.sp
    (v := .address _) htop

/-! ### Heads of the loop -/

namespace Run

/-- Whenever the run looks at the next instruction, the instruction pointer holds an integer. -/
theorem ip_int_of_running (p : Program) (s : Session) (n : Nat)
    (h : (after p n (start p s)).status = .running) :
    ∃ i, (after p n (start p s)).session.machine.registers.get Slot.ip = .int i := by
  have hset : ∀ (m : Machine) (index : Int), ∃ i, (m.setIp index).registers.get Slot.ip = .int i :=
    fun m index => ⟨_, m.registers.get_set_self Slot.ip _⟩
  -- it was set at the start of the run, or at the end of the round before
  cases n with
  | zero => exact hset s.machine p.start
  | succ n =>
    rw [after_succ] at h ⊢
    obtain ⟨ins, m', -, -, hm⟩ := exists_of_advance_running h
    rw [hm]
    exact hset m' _

end Run

namespace Context

/-- **Every machine value stays a word.** A context has a block of no more cells than there are
positive words, and nothing that was done with it has failed. Then all its values are words, and so
are those of the next run whenever it looks at the next instruction; the instruction pointer holds
an integer there. -/
theorem reached_values_are_words {l : Layout} {c : Context}
    (hl : (l.machine.cellCount : Int) ≤ Word.maximum) (h : Reached l Operation.Succeeds c) :
    ∃ m p, c.machine = some m ∧ c.program = some p ∧ m.WordSized ∧
      ∀ w n, (Run.after p n (Run.start p ⟨m, w⟩)).status = .running →
        (Run.after p n (Run.start p ⟨m, w⟩)).session.machine.WordSized ∧
        ∃ i, (Run.after p n (Run.start p ⟨m, w⟩)).session.machine.registers.get Slot.ip
          = .int i := by
  obtain ⟨p, s, rfl, hp⟩ := h.eq_ofSession
  have hinv : ∃ m, (ofSession p s).machine = some m ∧ wordSized.inv m := by
    refine h.inv (fun _ _ => ⟨Layout.machine_wordSized hl, hl⟩)
      (fun _ _ _ _ hq => wordSized_admitsProgram hq) ?_
    -- no operation of the history has failed
    rintro op c ⟨c', hok⟩ failure c'' herror
    rw [hok] at herror
    cases herror
  obtain ⟨m, hm, hwords⟩ := hinv
  refine ⟨m, p, hm, rfl, hwords.1, fun w n hrunning => ⟨?_, ?_⟩⟩
  · have horder := Discipline.after (.start (s := ⟨m, w⟩) hwords p) (wordSized_admitsProgram hp) n
    exact (horder.inv hrunning).1
  · exact Run.ip_int_of_running p ⟨m, w⟩ n hrunning

/-- A program that counts beyond the greatest word, and puts the result on the stack. -/
def overflowing : Program :=
  .make #[⟨.mov, [.register 0, .immediate 2147483647]⟩, ⟨.inc, [.register 0]⟩,
    ⟨.push, [.register 0]⟩, ⟨.mov, [.register 1, .ofSlot Slot.sp]⟩] 0 .empty .empty

/-- It ends at the least word, and with the stack pointer copied as an address. -/
theorem overflowing_values_are_words :
    ∃ c m, Reached ⟨64, 16, false⟩ Operation.Succeeds c ∧ c.machine = some m ∧
      m.registers.slots.toList.take 2 = [.int Word.minimum, .address 15] ∧ m.WordSized := by
  obtain ⟨c₀, hc₀⟩ : ∃ c₀, create ⟨64, 16, false⟩ = .ok c₀ := ⟨_, rfl⟩
  have hload : (Operation.load overflowing).Succeeds c₀ := by
    obtain rfl := Except.ok.inj hc₀
    exact ⟨_, rfl⟩
  have hrun : (Operation.run 5).Succeeds (left ((Operation.load overflowing).perform c₀)) := by
    obtain rfl := Except.ok.inj hc₀
    exact ⟨_, rfl⟩
  have hreached := ((Reached.create hc₀).perform _ hload).perform _ hrun
  obtain ⟨m, p, hm, -, hwords, -⟩ := reached_values_are_words (by decide) hreached
  refine ⟨_, m, hreached, hm, ?_, hwords⟩
  obtain rfl := Except.ok.inj hc₀
  obtain rfl := Option.some.inj hm
  rfl

end Context

end CellMachine
