import CellMachine.Machine.Execute

/-!
# What the operations of a machine do

Each operation of `Machine.Basic` is written as an action that looks something up and then goes on
or fails. Here each is given by one equation that separates the two: what is looked up is a plain
function of the machine, with a result or a fault, and the equation says what machine is left in
either case.

* Reading leaves the machine as it is: `load_eq` with `Machine.valueOf`, `loadValue_eq` with
  `Machine.taggedOf`.
* Writing changes one place or, when it fails, nothing: `store_eq` with `Machine.stored`,
  `storeValue_eq` with `Machine.storedTagged`.
* A push that fails at its cell has already moved the stack pointer (`push_eq`); a pop that fails
  has not (`pop_eq`).
-/

namespace CellMachine.Machine

/-! ### Looking up -/

/-- A cell is found through the size of the block and whether it is checked or released, and
through nothing else. -/
theorem locate_congr {m m' : Machine} (hcount : m'.cellCount = m.cellCount)
    (hchecked : m'.checked = m.checked) (hreleased : m'.released = m.released)
    (whenReleased : Fault) (i : Int) : m'.locate whenReleased i = m.locate whenReleased i := by
  obtain ⟨count, checked, _, _, _, _, _, released, _⟩ := m
  obtain ⟨count', checked', _, _, _, _, _, released', _⟩ := m'
  obtain rfl : count' = count := hcount
  obtain rfl : checked' = checked := hchecked
  obtain rfl : released' = released := hreleased
  unfold locate
  cases Index.fromEnd? count' i with
  | some c => rfl
  | none => rfl

@[simp] theorem locate_setSp (m : Machine) (cell : Int) (whenReleased : Fault) (i : Int) :
    (m.setSp cell).locate whenReleased i = m.locate whenReleased i := by
  apply locate_congr <;> rfl

/-- **Why an index refers to no cell.** A checked machine tests the block first, so the last reason
is left to an unchecked one. -/
theorem locate_eq_error {m : Machine} {whenReleased fault : Fault} {i : Int}
    (h : m.locate whenReleased i = .error fault) :
    (m.checked = true ∧ ¬ (0 ≤ i ∧ i < m.cellCount) ∧ fault = .outsideBlock i m.cellCount) ∨
    (m.released = true ∧ fault = whenReleased) ∨
    ((m.checked = true → 0 ≤ i ∧ i < m.cellCount) ∧ ¬ Index.Fits i ∧ fault = .wideIndex) ∨
    (m.checked = false ∧ Index.fromEnd? m.cellCount i = none ∧ fault = .noSuchCell) := by
  unfold locate at h
  -- one case for each test that `locate` makes, in its order
  split at h
  · next hc => exact Or.inl ⟨hc.1, hc.2, (Except.error.inj h).symm⟩
  · next hc =>
    have hin : m.checked = true → 0 ≤ i ∧ i < m.cellCount :=
      fun hchecked => Decidable.byContradiction fun hi => hc ⟨hchecked, hi⟩
    split at h
    · next hr => exact Or.inr (Or.inl ⟨hr, (Except.error.inj h).symm⟩)
    · split at h
      · next hfits => exact Or.inr (Or.inr (Or.inl ⟨hin, hfits, (Except.error.inj h).symm⟩))
      · split at h
        · cases h
        · next hnone =>
          refine Or.inr (Or.inr (Or.inr ⟨?_, hnone, (Except.error.inj h).symm⟩))
          -- an index of the block would have been found
          cases hchecked : m.checked with
          | false => rfl
          | true =>
            have hi := hin hchecked
            rw [Index.fromEnd?_of_nonneg hi.1, Index.ofInt?_of_lt hi] at hnone
            cases hnone

/-- **Which cell an index refers to.** A negative index counts from the end of the block, so the
cell is the index modulo the size of the block; a checked machine accepts no negative index. -/
theorem locate_eq_ok {m : Machine} {whenReleased : Fault} {i : Int} {c : Nat}
    (h : m.locate whenReleased i = .ok c) :
    (c : Int) = i % m.cellCount ∧ -(m.cellCount : Int) ≤ i ∧ i < m.cellCount ∧
      (m.checked = true → 0 ≤ i) := by
  unfold locate at h
  split at h
  · cases h
  · next hchecked =>
    have hin : m.checked = true → 0 ≤ i := fun hc =>
      (Decidable.byContradiction fun hi => hchecked ⟨hc, hi⟩ : 0 ≤ i ∧ i < m.cellCount).1
    split at h
    · cases h
    · split at h
      · cases h
      · split at h
        · next c' hpos =>
          obtain rfl : c'.val = c := Except.ok.inj h
          obtain ⟨hmod, hlow, hhigh⟩ := Index.fromEnd?_eq_some hpos
          exact ⟨hmod, hlow, hhigh, hin⟩
        · cases h

/-- An index from the front refers to its own cell. -/
theorem locate_eq_ok_of_nonneg {m : Machine} {whenReleased : Fault} {i : Int} {c : Nat}
    (h : m.locate whenReleased i = .ok c) (hi : 0 ≤ i) : (c : Int) = i := by
  obtain ⟨hc, -, hlt, -⟩ := locate_eq_ok h
  rw [hc, Int.emod_eq_of_lt hi hlt]

/-- A slot is not found for one of two reasons. -/
theorem slot_eq_error {missing fault : Fault} {i : Int} (h : slot missing i = .error fault) :
    fault = .wideIndex ∨ fault = missing := by
  unfold slot at h
  split at h
  · exact Or.inl (Except.error.inj h).symm
  · split at h
    · cases h
    · exact Or.inr (Except.error.inj h).symm

/-- What is found does not depend on the fault that would have been reported. -/
theorem locate_ok {m : Machine} {whenReleased : Fault} {i : Int} {c : Nat}
    (h : m.locate whenReleased i = .ok c) (whenReleased' : Fault) : m.locate whenReleased' i = .ok c := by
  unfold locate at h ⊢
  split at h
  · cases h
  · next hblock =>
    rw [if_neg hblock]
    split at h
    · cases h
    · next hreleased =>
      rw [if_neg hreleased]
      exact h

/-- The fault for a missing slot does not matter where there is one. -/
theorem slot_ok {missing : Fault} {i : Int} {s : Slot} (h : slot missing i = .ok s)
    (missing' : Fault) : slot missing' i = .ok s := by
  unfold slot at h ⊢
  split at h
  · cases h
  · next hfits =>
    rw [if_neg hfits]
    cases hs : Index.fromEnd? slotCount i with
    | some t =>
      rw [hs] at h
      exact h
    | none =>
      rw [hs] at h
      cases h

/-- The outcome of looking something up: the machine is the same after it. -/
def answer {α : Type} (m : Machine) : Except Fault α → EStateM.Result Fault Machine α
  | .ok a => .ok a m
  | .error fault => .error fault m

/-- An answer leaves the machine as it is. -/
theorem answer_eq_ok {α : Type} {m m' : Machine} {r : Except Fault α} {a : α}
    (h : m.answer r = .ok a m') : r = .ok a ∧ m' = m := by
  cases r with
  | ok b =>
    obtain ⟨rfl, rfl⟩ := EStateM.Result.ok.inj h
    exact ⟨rfl, rfl⟩
  | error fault => cases h

/-- What is in the cell that an index refers to. -/
def cellAt (m : Machine) (i : Int) : Except Fault Int :=
  (m.locate .releasedRead i).map m.cells.get

/-- What is in the register that an index refers to. -/
def registerAt (m : Machine) (i : Int) : Except Fault Value :=
  (slot .noSuchRegister i).map m.registers.get

/-- The number that an operand refers to. -/
def valueOf (m : Machine) : Operand → Except Fault Int
  | .register i => (m.registerAt i).map Value.toInt
  | .cell i => m.cellAt i
  | .immediate v => .ok v
  | .label name => .error (.unresolved name)

/-- The value that an operand refers to, an address where it is one. -/
def taggedOf (m : Machine) : Operand → Except Fault Value
  | .register i => m.registerAt i
  | o => (m.valueOf o).map .int

/-- Why an operand has no number. -/
theorem valueOf_eq_error {m : Machine} {o : Operand} {fault : Fault}
    (h : m.valueOf o = .error fault) :
    (∃ i, o = .register i ∧ slot .noSuchRegister i = .error fault) ∨
    (∃ i, o = .cell i ∧ m.locate .releasedRead i = .error fault) ∨
    (∃ name, o = .label name ∧ fault = .unresolved name) := by
  cases o with
  | register i =>
    refine Or.inl ⟨i, rfl, ?_⟩
    change ((slot .noSuchRegister i).map m.registers.get).map Value.toInt = .error fault at h
    cases hs : slot .noSuchRegister i with
    | ok s => rw [hs] at h; cases h
    | error fault' => rw [hs] at h; exact congrArg Except.error (Except.error.inj h)
  | cell i =>
    refine Or.inr (Or.inl ⟨i, rfl, ?_⟩)
    change (m.locate .releasedRead i).map m.cells.get = .error fault at h
    cases hl : m.locate .releasedRead i with
    | ok c => rw [hl] at h; cases h
    | error fault' => rw [hl] at h; exact congrArg Except.error (Except.error.inj h)
  | immediate v => cases h
  | label name => exact Or.inr (Or.inr ⟨name, rfl, (Except.error.inj h).symm⟩)

/-- Where the value of an operand comes from. -/
theorem taggedOf_eq_ok {m : Machine} {o : Operand} {v : Value} (h : m.taggedOf o = .ok v) :
    (∃ s, v = m.registers.get s) ∨ (∃ c, v = .int (m.cells.get c)) ∨
    (∃ n, o = .immediate n ∧ v = .int n) := by
  cases o with
  | register i =>
    change (slot .noSuchRegister i).map m.registers.get = .ok v at h
    cases hs : slot .noSuchRegister i with
    | ok s => rw [hs] at h; exact Or.inl ⟨s, (Except.ok.inj h).symm⟩
    | error fault => rw [hs] at h; cases h
  | cell i =>
    change ((m.locate .releasedRead i).map m.cells.get).map Value.int = .ok v at h
    cases hl : m.locate .releasedRead i with
    | ok c => rw [hl] at h; exact Or.inr (Or.inl ⟨c, (Except.ok.inj h).symm⟩)
    | error fault => rw [hl] at h; cases h
  | immediate n => exact Or.inr (Or.inr ⟨n, rfl, (Except.ok.inj h).symm⟩)
  | label name => cases h

/-- The number of an operand is that of its value. -/
theorem valueOf_eq_map (m : Machine) (o : Operand) :
    m.valueOf o = (m.taggedOf o).map Value.toInt := by
  -- apart from registers, the value is the number with a tag
  have hmap : ∀ r : Except Fault Int, r = (r.map Value.int).map Value.toInt := by
    intro r
    cases r with
    | ok v => rfl
    | error fault => rfl
  cases o with
  | register i => rfl
  | cell i => exact hmap _
  | immediate v => exact hmap _
  | label name => exact hmap _

/-- A number and a value fail to be read for the same reasons. -/
theorem valueOf_of_taggedOf_error {m : Machine} {o : Operand} {fault : Fault}
    (h : m.taggedOf o = .error fault) : m.valueOf o = .error fault := by
  rw [valueOf_eq_map, h]
  rfl

/-- To read a cell is to look at it. -/
theorem readCell_eq (i : Int) (m : Machine) : readCell i m = m.answer (m.cellAt i) := by
  unfold readCell cellAt
  cases m.locate .releasedRead i with
  | ok c => rfl
  | error fault => rfl

/-- To read a register is to look at it. -/
theorem getRegister_eq (i : Int) (m : Machine) : getRegister i m = m.answer (m.registerAt i) := by
  unfold getRegister registerAt
  cases slot .noSuchRegister i with
  | ok s => rfl
  | error fault => rfl

/-- **Loading** reads the number of an operand and leaves the machine as it is. -/
theorem load_eq (o : Operand) (m : Machine) : load o m = m.answer (m.valueOf o) := by
  cases o with
  | register i =>
    simp only [load, readRegister, valueOf, Exec.bind_apply, getRegister_eq]
    cases m.registerAt i with
    | ok v => rfl
    | error fault => rfl
  | cell i => exact readCell_eq i m
  | immediate v => rfl
  | label name => rfl

/-- To load a value is to look at what an operand refers to. -/
theorem loadValue_eq (o : Operand) (m : Machine) : loadValue o m = m.answer (m.taggedOf o) := by
  -- what is not in a register is loaded as a number first
  have hload : (do return Value.int (← load o) : Exec Value) m
      = m.answer ((m.valueOf o).map .int) := by
    rw [Exec.bind_apply, load_eq]
    cases m.valueOf o with
    | ok v => rfl
    | error fault => rfl
  cases o with
  | register i => exact getRegister_eq i m
  | cell i => exact hload
  | immediate v => exact hload
  | label name => exact hload

/-- What comes after a load works on the same machine. -/
theorem load_bind {α : Type} (o : Operand) (f : Int → Exec α) (m : Machine) :
    (load o >>= f) m =
      match m.valueOf o with
      | .ok v => f v m
      | .error fault => .error fault m := by
  rw [Exec.bind_apply, load_eq]
  cases m.valueOf o with
  | ok v => rfl
  | error fault => rfl

/-- The same holds of a load that keeps an address an address. -/
theorem loadValue_bind {α : Type} (o : Operand) (f : Value → Exec α) (m : Machine) :
    (loadValue o >>= f) m =
      match m.taggedOf o with
      | .ok v => f v m
      | .error fault => .error fault m := by
  rw [Exec.bind_apply, loadValue_eq]
  cases m.taggedOf o with
  | ok v => rfl
  | error fault => rfl

/-! ### Writing -/

/-- The outcome of a change that leaves the machine as it is when it cannot be made. -/
def settle (m : Machine) : Except Fault Machine → EStateM.Result Fault Machine Unit
  | .ok m' => .ok () m'
  | .error fault => .error fault m

/-- A change that settles was made. -/
theorem settle_eq_ok {m m' : Machine} {r : Except Fault Machine} (h : m.settle r = .ok () m') :
    r = .ok m' := by
  cases r with
  | ok m'' =>
    obtain ⟨-, rfl⟩ := EStateM.Result.ok.inj h
    rfl
  | error fault => cases h

/-- The machine with the word of a number in the cell that an index refers to. -/
def cellSet (m : Machine) (i v : Int) : Except Fault Machine :=
  (m.locate .releasedWrite i).map fun c => { m with cells := m.cells.set c (Word.wrap v) }

/-- The machine with a value in the register that an index refers to. -/
def registerSet (m : Machine) (i : Int) (v : Value) : Except Fault Machine :=
  (slot .noSuchTarget i).map fun s => { m with registers := m.registers.set s v }

/-- The machine with the word of a number in the place that an operand refers to. -/
def stored (m : Machine) (o : Operand) (v : Int) : Except Fault Machine :=
  match o with
  | .register i => m.registerSet i (.int (Word.wrap v))
  | .cell i => m.cellSet i v
  | .immediate _ | .label _ => .error (.readOnly o)

/-- The machine with a value in the place that an operand refers to. -/
def storedTagged (m : Machine) (o : Operand) (v : Value) : Except Fault Machine :=
  match o with
  | .register i => m.registerSet i v
  | o => m.stored o v.toInt

/-- A cell that is set was found, and holds a word. -/
theorem cellSet_eq_ok {m m' : Machine} {i v : Int} (h : m.cellSet i v = .ok m') :
    ∃ c, m.locate .releasedWrite i = .ok c ∧
      m' = { m with cells := m.cells.set c (Word.wrap v) } := by
  unfold cellSet at h
  cases hl : m.locate .releasedWrite i with
  | ok c =>
    rw [hl] at h
    exact ⟨c, rfl, (Except.ok.inj h).symm⟩
  | error fault => rw [hl] at h; cases h

/-- A cell is not set only if it is not found. -/
theorem cellSet_eq_error {m : Machine} {i v : Int} {fault : Fault}
    (h : m.cellSet i v = .error fault) : m.locate .releasedWrite i = .error fault := by
  unfold cellSet at h
  cases hl : m.locate .releasedWrite i with
  | ok c => rw [hl] at h; cases h
  | error fault' => rw [hl] at h; exact congrArg Except.error (Except.error.inj h)

/-- A register that is set was found. -/
theorem registerSet_eq_ok {m m' : Machine} {i : Int} {v : Value} (h : m.registerSet i v = .ok m') :
    ∃ s, slot .noSuchTarget i = .ok s ∧ m' = { m with registers := m.registers.set s v } := by
  unfold registerSet at h
  cases hs : slot .noSuchTarget i with
  | ok s =>
    rw [hs] at h
    exact ⟨s, rfl, (Except.ok.inj h).symm⟩
  | error fault => rw [hs] at h; cases h

/-- A register is not set only if it is not found. -/
theorem registerSet_eq_error {m : Machine} {i : Int} {v : Value} {fault : Fault}
    (h : m.registerSet i v = .error fault) : slot .noSuchTarget i = .error fault := by
  unfold registerSet at h
  cases hs : slot .noSuchTarget i with
  | ok s => rw [hs] at h; cases h
  | error fault' => rw [hs] at h; exact congrArg Except.error (Except.error.inj h)

/-- Why nothing is stored through an operand. -/
theorem stored_eq_error {m : Machine} {o : Operand} {v : Int} {fault : Fault}
    (h : m.stored o v = .error fault) :
    (∃ i, o = .register i ∧ slot .noSuchTarget i = .error fault) ∨
    (∃ i, o = .cell i ∧ m.locate .releasedWrite i = .error fault) ∨
    (o.isWritable = false ∧ fault = .readOnly o) := by
  cases o with
  | register i => exact Or.inl ⟨i, rfl, registerSet_eq_error h⟩
  | cell i => exact Or.inr (Or.inl ⟨i, rfl, cellSet_eq_error h⟩)
  | immediate n => exact Or.inr (Or.inr ⟨rfl, (Except.error.inj h).symm⟩)
  | label name => exact Or.inr (Or.inr ⟨rfl, (Except.error.inj h).symm⟩)

/-- A number that was stored through an operand is read back through it, as a word. -/
theorem valueOf_of_stored {m m' : Machine} {o : Operand} {v : Int} (h : m.stored o v = .ok m') :
    m'.valueOf o = .ok (Word.wrap v) := by
  cases o with
  | register i =>
    obtain ⟨s, hs, rfl⟩ := registerSet_eq_ok h
    show ((slot .noSuchRegister i).map _).map Value.toInt = _
    rw [slot_ok hs]
    exact congrArg (fun v => Except.ok (Value.toInt v)) (m.registers.get_set_self s _)
  | cell i =>
    obtain ⟨c, hc, rfl⟩ := cellSet_eq_ok h
    have hread : locate { m with cells := m.cells.set c (Word.wrap v) } .releasedRead i
        = m.locate .releasedRead i := by
      apply locate_congr <;> rfl
    show (locate _ .releasedRead i).map _ = _
    rw [hread, locate_ok hc]
    exact congrArg Except.ok (m.cells.get_set_self c _)
  | immediate n => cases h
  | label name => cases h

/-- To write a cell is to settle for it being set. -/
theorem writeCell_eq (i v : Int) (m : Machine) : writeCell i v m = m.settle (m.cellSet i v) := by
  unfold writeCell cellSet
  cases m.locate .releasedWrite i with
  | ok c => rfl
  | error fault => rfl

/-- To write a register is to settle for it being set. -/
theorem setRegister_eq (i : Int) (v : Value) (m : Machine) :
    setRegister i v m = m.settle (m.registerSet i v) := by
  unfold setRegister registerSet
  cases slot .noSuchTarget i with
  | ok s => rfl
  | error fault => rfl

/-- **Storing** changes the place of an operand or, when it fails, nothing. -/
theorem store_eq (o : Operand) (v : Int) (m : Machine) :
    store o v m = m.settle (m.stored o v) := by
  cases o with
  | register i => exact setRegister_eq i _ m
  | cell i => exact writeCell_eq i v m
  | immediate n => rfl
  | label name => rfl

/-- To store a value is to settle for its operand being set. -/
theorem storeValue_eq (o : Operand) (v : Value) (m : Machine) :
    storeValue o v m = m.settle (m.storedTagged o v) := by
  cases o with
  | register i => exact setRegister_eq i v m
  | cell i => exact store_eq (.cell i) v.toInt m
  | immediate n => rfl
  | label name => rfl

/-! ### The stack -/

/-- **Pushing** moves the stack pointer and then writes its cell, so a push whose cell cannot be
written leaves the stack pointer moved. Only the check of the stack region comes before that. -/
theorem push_eq (v : Int) (m : Machine) :
    push v m =
      if m.checked ∧ m.registers.sp - 1 < m.stackLimit then
        .error (.stackOverflow (m.registers.sp - 1) m.stackLimit) m
      else (m.setSp (m.registers.sp - 1)).settle
        ((m.setSp (m.registers.sp - 1)).cellSet (m.registers.sp - 1) v) := by
  simp only [push, writeCell_eq]

/-- **Popping** reads the cell and then moves the stack pointer, so a pop that fails changes
nothing. -/
theorem pop_eq (m : Machine) :
    pop m =
      if m.checked ∧ m.registers.bp ≤ m.registers.sp then
        .error (.stackUnderflow m.registers.sp) m
      else match m.cellAt m.registers.sp with
        | .ok v => .ok v (m.setSp (m.registers.sp + 1))
        | .error fault => .error fault m := by
  simp only [pop, readCell_eq]
  -- reading leaves the machine, so the stack pointer moves on the machine as it was
  cases m.cellAt m.registers.sp with
  | ok v => rfl
  | error fault => rfl

/-- A push that succeeds has moved the stack pointer down and written the cell it then refers to. -/
theorem push_eq_ok {v : Int} {m m' : Machine} (h : push v m = .ok () m') :
    ∃ c, m.locate .releasedWrite (m.registers.sp - 1) = .ok c ∧
      m' = { m.setSp (m.registers.sp - 1) with cells := m.cells.set c (Word.wrap v) } := by
  rw [push_eq] at h
  split at h
  · cases h
  · obtain ⟨c, hc, hm'⟩ := cellSet_eq_ok (settle_eq_ok h)
    -- the cell was looked up after the stack pointer had moved, which makes no difference
    rw [locate_setSp] at hc
    exact ⟨c, hc, hm'⟩

/-- A pop that succeeds has read the cell at the stack pointer and moved it up. -/
theorem pop_eq_ok {v : Int} {m m' : Machine} (h : pop m = .ok v m') :
    m.cellAt m.registers.sp = .ok v ∧ m' = m.setSp (m.registers.sp + 1) := by
  rw [pop_eq] at h
  split at h
  · cases h
  · cases hc : m.cellAt m.registers.sp with
    | ok n =>
      rw [hc] at h
      obtain ⟨rfl, rfl⟩ := EStateM.Result.ok.inj h
      exact ⟨rfl, rfl⟩
    | error fault => rw [hc] at h; cases h

end CellMachine.Machine
