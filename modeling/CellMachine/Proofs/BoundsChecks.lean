import CellMachine.Proofs.Discipline

/-!
# Bounds checks

A checked machine and an unchecked one share every definition, and the two differ in nothing but
the field `checked`. What the field changes is decided in three places: in `Machine.locate`, which
tests the index of a cell, and in `Machine.push` and `Machine.pop`, which test the stack region.

The comparison is a simulation that is built along the structure of an action. `AgreeAt excused x m`
says that the outcomes of `x` on the checked and on the unchecked copy of `m` are the same, with one
excuse: where `excused` holds, the checked outcome may be a failed bounds check instead. The two
extremes are of use:

* with the excuse it holds of every instruction on every machine, so a checked run agrees with the
  unchecked one for as long as no bounds check has failed (`checked_run_agrees_iff`);
* without it, it holds of an instruction that stays in the block and that the stack check lets pass
  (`execute_agreeAt`).

A failed bounds check reports the numbers it compared. One that has too many digits cannot be
written (`Fault.isTold`), and then the failure is no longer one of access. This is the only way in
which a checked run can end that is neither the end of the unchecked run nor a fault of access. What
becomes of the agreement there depends on what is asked of it. The runs no longer end alike; whether
they still show the same machine and count (`SameState`) is up to the unchecked run.
-/

namespace CellMachine

/-! ### What an instruction touches -/

/-- The cell that an operand refers to. -/
def Operand.cell? : Operand → Option Int
  | .cell i => some i
  | _ => none

namespace Machine

/-- The operands that an instruction follows. A conditional jump that is not taken follows none. -/
def followed (m : Machine) (ins : Instruction) : List Operand :=
  match jumpCondition ins.opcode with
  | some condition => if condition m.flags then ins.operands else []
  | none => ins.operands

/-- The cell that an instruction pushes to or pops from. -/
def stackCell? (m : Machine) : Opcode → Option Int
  | .push | .pushf | .call => some (m.registers.sp - 1)
  | .pop | .popf | .ret => some m.registers.sp
  | _ => none

/-- The cells that an instruction reads or writes. -/
def touched (m : Machine) (ins : Instruction) : List Int :=
  (m.followed ins).filterMap Operand.cell? ++ (m.stackCell? ins.opcode).toList

/-- Every cell that an instruction reads or writes lies in the block. -/
def StaysInBlock (m : Machine) (ins : Instruction) : Prop :=
  ∀ i ∈ m.touched ins, 0 ≤ i ∧ i < m.cellCount

/-- The check of the stack region lets an instruction pass. It measures from the stack base as it
is at that moment. -/
def StackAllows (m : Machine) : Opcode → Prop
  | .push | .pushf | .call => m.stackLimit ≤ m.registers.sp - 1
  | .pop | .popf | .ret => m.registers.sp < m.registers.bp
  | _ => True

/-- An operand that is followed refers to a cell of the block, if it refers to a cell. -/
theorem StaysInBlock.operand {m : Machine} {ins : Instruction} (h : m.StaysInBlock ins)
    {o : Operand} (ho : o ∈ m.followed ins) : ∀ i, o = .cell i → 0 ≤ i ∧ i < m.cellCount := by
  rintro i rfl
  exact h i (List.mem_append_left _ (List.mem_filterMap.mpr ⟨.cell i, ho, rfl⟩))

/-- What is pushed to or popped from is a cell of the block. -/
theorem StaysInBlock.stack {m : Machine} {ins : Instruction} (h : m.StaysInBlock ins)
    {i : Int} (hi : m.stackCell? ins.opcode = some i) : 0 ≤ i ∧ i < m.cellCount :=
  h i (List.mem_append_right _ (by rw [hi]; exact List.mem_singleton_self i))

/-! ### Switching the checks -/

/-- The machine with its checks switched on or off. -/
def withChecks (m : Machine) (on : Bool) : Machine := { m with checked := on }

section WithChecks

variable (m : Machine) (on on' : Bool)

@[simp] theorem withChecks_registers : (m.withChecks on).registers = m.registers := rfl

@[simp] theorem withChecks_withChecks : (m.withChecks on).withChecks on' = m.withChecks on' := rfl

end WithChecks

/-- An index from the front refers to its own cell, whether or not it is checked. -/
theorem locate_of_inBlock {m : Machine} {i : Int} (h : 0 ≤ i ∧ i < m.cellCount)
    (whenReleased : Fault) :
    m.locate whenReleased i =
      if m.released then .error whenReleased
      else if ¬ Index.Fits i then .error .wideIndex
      else .ok i.toNat := by
  unfold locate
  -- the bounds check passes, and an index that is not negative is not counted from the end
  rw [if_neg fun hc => hc.2 h, Index.fromEnd?_of_nonneg h.1, Index.ofInt?_of_lt h]

/-- An index of a block that is held refers to its own cell: no block has more cells than can be
counted. -/
theorem locate_of_held {m : Machine} {i : Int} (h : 0 ≤ i ∧ i < m.cellCount)
    (hheld : m.released = false) (hcount : (m.cellCount : Int) ≤ sizeLimit)
    (whenReleased : Fault) : m.locate whenReleased i = .ok i.toNat := by
  have hfits : Index.Fits i := by
    unfold sizeLimit at hcount
    unfold Index.Fits
    omega
  rw [locate_of_inBlock h, if_neg (by rw [hheld]; decide), if_neg (not_not_intro hfits)]

/-- Inside the block the checks do not change which cell an index refers to. -/
theorem locate_withChecks {m : Machine} {i : Int} (h : 0 ≤ i ∧ i < m.cellCount)
    (whenReleased : Fault) (on : Bool) :
    (m.withChecks on).locate whenReleased i = m.locate whenReleased i := by
  -- `locate` matches on a position of the block, so both sides are first brought to the same form
  have h' : 0 ≤ i ∧ i < (m.withChecks on).cellCount := h
  rw [locate_of_inBlock h', locate_of_inBlock h]
  rfl

/-- Outside the block the checked copy fails, whatever the unchecked one does. -/
theorem locate_of_not_inBlock {m : Machine} {i : Int} (h : ¬ (0 ≤ i ∧ i < m.cellCount))
    (whenReleased : Fault) :
    (m.withChecks true).locate whenReleased i = .error (.outsideBlock i m.cellCount) := by
  unfold locate
  rw [if_pos ⟨rfl, h⟩]
  rfl

/-- An unchecked machine finds no cell for other reasons than a bounds check. -/
theorem locate_unchecked {m : Machine} {whenReleased fault : Fault} {i : Int}
    (hm : m.checked = false) (hw : whenReleased.isBoundsCheck = false)
    (h : m.locate whenReleased i = .error fault) : fault.isBoundsCheck = false := by
  rcases locate_eq_error h with ⟨hc, -⟩ | ⟨-, rfl⟩ | ⟨-, -, rfl⟩ | ⟨-, -, rfl⟩
  · rw [hm] at hc
    cases hc
  · exact hw
  · rfl
  · rfl

/-! ### Agreement of outcomes -/

/-- **Agreement.** The outcome on the checked copy of a machine is the one on the unchecked copy;
where `excused` holds, it may be a failed bounds check instead. -/
inductive Agree {α : Type} (excused : Prop) :
    EStateM.Result Fault Machine α → EStateM.Result Fault Machine α → Prop
  | ok (a : α) (m : Machine) :
    Agree excused (.ok a (m.withChecks true)) (.ok a (m.withChecks false))
  | error (fault : Fault) (m : Machine) :
    Agree excused (.error fault (m.withChecks true)) (.error fault (m.withChecks false))
  | bounds {fault : Fault} {m : Machine} {r : EStateM.Result Fault Machine α} (he : excused)
    (hf : fault.isBoundsCheck = true) : Agree excused (.error fault m) r

/-- An action agrees on the two copies of a machine. -/
def AgreeAt {α : Type} (excused : Prop) (x : Exec α) (m : Machine) : Prop :=
  Agree excused (x (m.withChecks true)) (x (m.withChecks false))

section AgreeAt

variable {α β : Type} {excused : Prop} {m : Machine}

theorem AgreeAt.pure (a : α) : AgreeAt excused (pure a : Exec α) m := .ok a m

theorem AgreeAt.throw (fault : Fault) : AgreeAt excused (throw fault : Exec α) m := .error fault m

/-- A change that leaves the checks alone is made to both copies. -/
theorem AgreeAt.modify {f : Machine → Machine}
    (hf : ∀ on, f (m.withChecks on) = (f m).withChecks on) :
    AgreeAt excused (modify f : Exec Unit) m := by
  unfold AgreeAt
  rw [Exec.modify_apply, Exec.modify_apply, hf, hf]
  exact .ok () (f m)

/-- The second action is asked only about the machine that the first one ended in. -/
theorem AgreeAt.bind {x : Exec α} {f : α → Exec β} (hx : AgreeAt excused x m)
    (hf : ∀ a m', x (m.withChecks false) = .ok a (m'.withChecks false) →
      AgreeAt excused (f a) m') :
    AgreeAt excused (x >>= f) m := by
  unfold AgreeAt at hx ⊢
  rw [Exec.bind_apply, Exec.bind_apply]
  generalize x (m.withChecks true) = checked at hx
  generalize hu : x (m.withChecks false) = unchecked at hx
  cases hx with
  | ok a m' => exact hf a m' hu
  | error fault m' => exact .error fault m'
  | bounds he hfault =>
    -- the unchecked copy may go on as it likes
    exact .bounds he hfault

/-- What is read off the machine has to be the same on the two copies. -/
theorem AgreeAt.get_bind {f : Machine → Exec β} (hf : ∀ on, f (m.withChecks on) = f m)
    (h : AgreeAt excused (f m) m) : AgreeAt excused (get >>= f) m := by
  unfold AgreeAt at h ⊢
  rw [Exec.bind_apply, Exec.bind_apply, Exec.get_apply, Exec.get_apply]
  simp only [hf]
  exact h

/-! ### Cells, registers and the stack -/

/-- **Reading a cell** agrees inside the block. -/
theorem agreeAt_readCell {i : Int} (h : excused ∨ (0 ≤ i ∧ i < m.cellCount)) :
    AgreeAt excused (readCell i) m := by
  unfold AgreeAt readCell
  by_cases hi : 0 ≤ i ∧ i < m.cellCount
  · rw [locate_withChecks hi, locate_withChecks hi]
    cases m.locate .releasedRead i with
    | ok c => exact .ok (m.cells.get c) m
    | error fault => exact .error fault m
  · -- outside the block the checked copy needs the excuse
    rw [locate_of_not_inBlock hi]
    exact .bounds (h.resolve_right hi) rfl

/-- **Writing a cell** agrees inside the block. -/
theorem agreeAt_writeCell {i v : Int} (h : excused ∨ (0 ≤ i ∧ i < m.cellCount)) :
    AgreeAt excused (writeCell i v) m := by
  unfold AgreeAt writeCell
  by_cases hi : 0 ≤ i ∧ i < m.cellCount
  · rw [locate_withChecks hi, locate_withChecks hi]
    cases m.locate .releasedWrite i with
    | ok c => exact .ok () { m with cells := m.cells.set c (Word.wrap v) }
    | error fault => exact .error fault m
  · rw [locate_of_not_inBlock hi]
    exact .bounds (h.resolve_right hi) rfl

/-- Registers are not checked. -/
theorem agreeAt_getRegister (i : Int) : AgreeAt excused (getRegister i) m := by
  unfold AgreeAt getRegister
  cases slot .noSuchRegister i with
  | ok s => exact .ok (m.registers.get s) m
  | error fault => exact .error fault m

/-- Registers are not checked. -/
theorem agreeAt_setRegister (i : Int) (v : Value) : AgreeAt excused (setRegister i v) m := by
  unfold AgreeAt setRegister
  cases slot .noSuchTarget i with
  | ok s => exact .ok () { m with registers := m.registers.set s v }
  | error fault => exact .error fault m

/-- **Pushing** agrees where the check of the region lets it pass and the cell is in the block. -/
theorem agreeAt_push {v : Int}
    (h : excused ∨ (m.stackLimit ≤ m.registers.sp - 1 ∧
      (0 ≤ m.registers.sp - 1 ∧ m.registers.sp - 1 < m.cellCount))) :
    AgreeAt excused (push v) m := by
  have hwrite : AgreeAt excused (writeCell (m.registers.sp - 1) v) (m.setSp (m.registers.sp - 1)) :=
    agreeAt_writeCell (h.imp_right And.right)
  unfold AgreeAt push
  by_cases hl : m.registers.sp - 1 < m.stackLimit
  · -- the checked copy refuses before it moves the stack pointer
    have he : excused := h.resolve_right fun hs => absurd hl (by omega)
    rw [if_pos ⟨rfl, hl⟩]
    exact .bounds he rfl
  · rw [if_neg fun hc => hl hc.2, if_neg fun hc => hl hc.2]
    exact hwrite

/-- **Popping** agrees where the stack is not empty and the cell is in the block. -/
theorem agreeAt_pop
    (h : excused ∨ (m.registers.sp < m.registers.bp ∧
      (0 ≤ m.registers.sp ∧ m.registers.sp < m.cellCount))) :
    AgreeAt excused pop m := by
  have hread : AgreeAt excused (readCell m.registers.sp) m :=
    agreeAt_readCell (h.imp_right And.right)
  unfold AgreeAt pop
  by_cases hl : m.registers.bp ≤ m.registers.sp
  · have he : excused := h.resolve_right fun hs => absurd hl (by omega)
    rw [if_pos ⟨rfl, hl⟩]
    exact .bounds he rfl
  · rw [if_neg fun hc => hl hc.2, if_neg fun hc => hl hc.2]
    -- both copies read the same cell, and only then move the stack pointer
    simp only [withChecks_registers]
    unfold AgreeAt at hread
    generalize readCell m.registers.sp (m.withChecks true) = checked at hread ⊢
    generalize readCell m.registers.sp (m.withChecks false) = unchecked at hread ⊢
    cases hread with
    | ok item m' => exact .ok item (m'.setSp (m.registers.sp + 1))
    | error fault m' => exact .error fault m'
    | bounds he hf => exact .bounds he hf

/-! ### Operands -/

/-- The cell that an operand refers to is in the block, if it refers to one. -/
def OperandInBlock (m : Machine) (o : Operand) : Prop :=
  ∀ i, o = .cell i → 0 ≤ i ∧ i < m.cellCount

/-- Reading an operand agrees; only a cell has something to check. -/
theorem agreeAt_load {o : Operand} (h : excused ∨ m.OperandInBlock o) :
    AgreeAt excused (load o) m := by
  cases o with
  | register i => exact (agreeAt_getRegister i).bind fun v m' _ => AgreeAt.pure v.toInt
  | cell i => exact agreeAt_readCell (h.imp_right fun hb => hb i rfl)
  | immediate v => exact AgreeAt.pure v
  | label name => exact AgreeAt.throw (.unresolved name)

/-- Writing an operand agrees; only a cell has something to check. -/
theorem agreeAt_store {o : Operand} {v : Int} (h : excused ∨ m.OperandInBlock o) :
    AgreeAt excused (store o v) m := by
  cases o with
  | register i => exact agreeAt_setRegister i _
  | cell i => exact agreeAt_writeCell (h.imp_right fun hb => hb i rfl)
  | immediate n => exact AgreeAt.throw (.readOnly (.immediate n))
  | label name => exact AgreeAt.throw (.readOnly (.label name))

/-- A value that is not in a register is read as a number, so it agrees as that does. -/
theorem agreeAt_loadValue {o : Operand} (h : excused ∨ m.OperandInBlock o) :
    AgreeAt excused (loadValue o) m := by
  have hload := (agreeAt_load h).bind (f := fun v => Pure.pure (Value.int v))
    fun v _ _ => AgreeAt.pure (Value.int v)
  cases o with
  | register i => exact agreeAt_getRegister i
  | cell i => exact hload
  | immediate n => exact hload
  | label name => exact hload

theorem agreeAt_storeValue {o : Operand} {v : Value} (h : excused ∨ m.OperandInBlock o) :
    AgreeAt excused (storeValue o v) m := by
  cases o with
  | register i => exact agreeAt_setRegister i v
  | cell i => exact agreeAt_store h
  | immediate n => exact AgreeAt.throw (.readOnly (.immediate n))
  | label name => exact AgreeAt.throw (.readOnly (.label name))

/-- The two copies of a machine determine each other. -/
theorem AgreeAt.of_eq {x : Exec α} {m' : Machine} (h : m'.withChecks false = m.withChecks false)
    (hx : AgreeAt excused x m) : AgreeAt excused x m' := by
  -- one copy tells everything but `checked`, so it tells the other copy
  have h' := congrArg (·.withChecks true) h
  simp only [withChecks_withChecks] at h'
  unfold AgreeAt at hx ⊢
  rw [h, h']
  exact hx

/-- Reading leaves the machine, so what follows is asked about the machine as it was. -/
theorem AgreeAt.load_bind {o : Operand} {f : Int → Exec β} (ho : excused ∨ m.OperandInBlock o)
    (hf : ∀ v, AgreeAt excused (f v) m) : AgreeAt excused (load o >>= f) m := by
  refine (agreeAt_load ho).bind fun v m' h => ?_
  rw [load_eq] at h
  exact (hf v).of_eq (answer_eq_ok h).2

theorem AgreeAt.loadValue_bind {o : Operand} {f : Value → Exec β}
    (ho : excused ∨ m.OperandInBlock o) (hf : ∀ v, AgreeAt excused (f v) m) :
    AgreeAt excused (loadValue o >>= f) m := by
  refine (agreeAt_loadValue ho).bind fun v m' h => ?_
  rw [loadValue_eq] at h
  exact (hf v).of_eq (answer_eq_ok h).2

/-! ### Instructions -/

/-- The wrong number of operands is the same fault on both copies. -/
theorem AgreeAt.withOne {operands : List Operand} {action : Operand → Exec Unit}
    (h : ∀ a ∈ operands, AgreeAt excused (action a) m) :
    AgreeAt excused (withOne operands action) m := by
  unfold Machine.withOne
  split
  · next a => exact h a (List.mem_singleton_self a)
  · exact AgreeAt.throw .missingOperand

theorem AgreeAt.withTwo {operands : List Operand} {action : Operand → Operand → Exec Unit}
    (h : ∀ a ∈ operands, ∀ b ∈ operands, AgreeAt excused (action a b) m) :
    AgreeAt excused (withTwo operands action) m := by
  unfold Machine.withTwo
  split
  · next a b => exact h a List.mem_cons_self b (List.mem_cons_of_mem a (List.mem_singleton_self b))
  · exact AgreeAt.throw .missingOperand

section Handlers

variable {target source : Operand} (ht : excused ∨ m.OperandInBlock target)
  (hs : excused ∨ m.OperandInBlock source)

include ht

/-- One operand is read and written. -/
theorem agreeAt_unary (f : Int → Int) : AgreeAt excused (unary f target) m :=
  AgreeAt.load_bind ht fun _ => agreeAt_store ht

/-- A transfer reads its target and moves the instruction pointer. -/
theorem agreeAt_transfer : AgreeAt excused (transfer target) m :=
  AgreeAt.load_bind ht fun _ => AgreeAt.modify fun _ => rfl

/-- Both copies print the number, or both find that it has too many digits. -/
theorem agreeAt_print : AgreeAt excused (print target) m := by
  refine AgreeAt.load_bind ht fun v => ?_
  split
  · exact AgreeAt.modify fun _ => rfl
  · exact AgreeAt.throw .unwritable

include hs

/-- Two operands are read and the first one is written. -/
theorem agreeAt_binary (f : Int → Int → Int) : AgreeAt excused (binary f target source) m :=
  AgreeAt.load_bind ht fun _ => AgreeAt.load_bind hs fun _ => agreeAt_store ht

/-- The divisor is the same on both copies, so both divide or both fail. -/
theorem agreeAt_divide : AgreeAt excused (divide target source) m := by
  refine AgreeAt.load_bind ht fun a => AgreeAt.load_bind hs fun b => ?_
  cases Word.div? a b with
  | some q => exact agreeAt_store ht
  | none => exact AgreeAt.throw .zeroDivisor

/-- A remainder goes to no cell. -/
theorem agreeAt_modulo : AgreeAt excused (modulo target source) m := by
  refine AgreeAt.load_bind ht fun a => AgreeAt.load_bind hs fun b => ?_
  cases Word.mod? a b with
  | some r => exact AgreeAt.modify fun _ => rfl
  | none => exact AgreeAt.throw .zeroModulus

theorem agreeAt_compareOperands : AgreeAt excused (compareOperands target source) m :=
  AgreeAt.load_bind ht fun _ => AgreeAt.load_bind hs fun _ => AgreeAt.modify fun _ => rfl

theorem agreeAt_move : AgreeAt excused (move target source) m :=
  AgreeAt.loadValue_bind hs fun _ => agreeAt_storeValue ht

end Handlers

/-! The instructions of the stack move the stack pointer between two accesses; what is left of the
block to test is not affected by that. -/

section StackHandlers

variable {operand : Operand} (ho : excused ∨ m.OperandInBlock operand)

include ho

theorem agreeAt_pushOperand
    (h : excused ∨ (m.stackLimit ≤ m.registers.sp - 1 ∧
      (0 ≤ m.registers.sp - 1 ∧ m.registers.sp - 1 < m.cellCount))) :
    AgreeAt excused (pushOperand operand) m :=
  AgreeAt.load_bind ho fun _ => agreeAt_push h

/-- The store comes after the pop, on a machine whose block is as large as before. -/
theorem agreeAt_popOperand
    (h : excused ∨ (m.registers.sp < m.registers.bp ∧
      (0 ≤ m.registers.sp ∧ m.registers.sp < m.cellCount))) :
    AgreeAt excused (popOperand operand) m := by
  refine (agreeAt_pop h).bind fun v m' hpop => agreeAt_store (ho.imp_right fun hb => ?_)
  -- a pop leaves the size of the block
  have hcount := congrArg Machine.cellCount (pop_eq_ok hpop).2
  intro i hi
  rw [show m'.cellCount = m.cellCount from hcount]
  exact hb i hi

/-- The target is read after the push, which leaves the size of the block as well. -/
theorem agreeAt_callTarget
    (h : excused ∨ (m.stackLimit ≤ m.registers.sp - 1 ∧
      (0 ≤ m.registers.sp - 1 ∧ m.registers.sp - 1 < m.cellCount))) :
    AgreeAt excused (callTarget operand) m := by
  apply AgreeAt.get_bind fun _ => rfl
  refine (agreeAt_push h).bind fun _ m' hpush => agreeAt_transfer (ho.imp_right fun hb => ?_)
  obtain ⟨c, -, hm'⟩ := push_eq_ok hpush
  have hcount := congrArg Machine.cellCount hm'
  intro i hi
  rw [show m'.cellCount = m.cellCount from hcount]
  exact hb i hi

end StackHandlers

/-- A return is a pop. -/
theorem agreeAt_returnToCaller
    (h : excused ∨ (m.registers.sp < m.registers.bp ∧
      (0 ≤ m.registers.sp ∧ m.registers.sp < m.cellCount))) :
    AgreeAt excused returnToCaller m :=
  (agreeAt_pop h).bind fun _ _ _ => AgreeAt.modify fun _ => rfl

/-- A jump that is not taken does not follow its operand, so nothing is asked of it then. -/
theorem agreeAt_transferIf {condition : Int → Bool} {target : Operand}
    (h : condition m.flags = true → excused ∨ m.OperandInBlock target) :
    AgreeAt excused (transferIf condition target) m := by
  apply AgreeAt.get_bind fun _ => rfl
  split
  · next hc => exact agreeAt_transfer (h hc)
  · exact AgreeAt.pure ()

/-- A jump that is taken follows its operand. -/
theorem mem_followed_of_taken {opcode : Opcode} {operands : List Operand} {condition : Int → Bool}
    {o : Operand} (hj : jumpCondition opcode = some condition) (hc : condition m.flags = true)
    (ho : o ∈ operands) : o ∈ m.followed ⟨opcode, operands⟩ := by
  unfold followed
  rw [hj]
  change o ∈ if condition m.flags then operands else []
  rw [if_pos hc]
  exact ho

/-- **One instruction.** An instruction agrees on the two copies of a machine. The excuse is needed
only when it leaves the block or the check of the stack region stops it. -/
theorem execute_agreeAt {ins : Instruction}
    (h : excused ∨ (m.StaysInBlock ins ∧ m.StackAllows ins.opcode)) :
    AgreeAt excused (execute ins.opcode ins.operands) m := by
  obtain ⟨opcode, operands⟩ := ins
  -- what is known of the instruction, given out to its operands, its stack cell and its jump
  have hop : ∀ o ∈ m.followed ⟨opcode, operands⟩, excused ∨ m.OperandInBlock o :=
    fun o ho => h.imp_right fun hb => hb.1.operand ho
  have hstack : excused ∨ (m.StackAllows opcode ∧
      ∀ i, m.stackCell? opcode = some i → 0 ≤ i ∧ i < m.cellCount) :=
    h.imp_right fun hb => ⟨hb.2, fun i hi => hb.1.stack hi⟩
  have hjump : ∀ condition, jumpCondition opcode = some condition → ∀ o ∈ operands,
      AgreeAt excused (transferIf condition o) m :=
    fun condition hj o ho => agreeAt_transferIf fun hc => hop o (mem_followed_of_taken hj hc ho)
  cases opcode with
  | stop | nop | int => exact AgreeAt.pure ()
  | mov => exact AgreeAt.withTwo fun t ht s hs => agreeAt_move (hop t ht) (hop s hs)
  | push =>
    exact AgreeAt.withOne fun o ho =>
      agreeAt_pushOperand (hop o ho) (hstack.imp_right fun hb => ⟨hb.1, hb.2 _ rfl⟩)
  | pop | popf =>
    exact AgreeAt.withOne fun o ho =>
      agreeAt_popOperand (hop o ho) (hstack.imp_right fun hb => ⟨hb.1, hb.2 _ rfl⟩)
  | pushf =>
    exact AgreeAt.get_bind (fun _ => rfl)
      (agreeAt_push (hstack.imp_right fun hb => ⟨hb.1, hb.2 _ rfl⟩))
  | inc | dec | not => exact AgreeAt.withOne fun t ht => agreeAt_unary (hop t ht) _
  | add | sub | mul | xor | or | and | shl | shr =>
    exact AgreeAt.withTwo fun t ht s hs => agreeAt_binary (hop t ht) (hop s hs) _
  | div => exact AgreeAt.withTwo fun t ht s hs => agreeAt_divide (hop t ht) (hop s hs)
  | mod => exact AgreeAt.withTwo fun t ht s hs => agreeAt_modulo (hop t ht) (hop s hs)
  | rem =>
    exact AgreeAt.withOne fun t ht => AgreeAt.get_bind (fun _ => rfl) (agreeAt_store (hop t ht))
  | cmp => exact AgreeAt.withTwo fun t ht s hs => agreeAt_compareOperands (hop t ht) (hop s hs)
  | jmp => exact AgreeAt.withOne fun t ht => agreeAt_transfer (hop t ht)
  | call =>
    exact AgreeAt.withOne fun o ho =>
      agreeAt_callTarget (hop o ho) (hstack.imp_right fun hb => ⟨hb.1, hb.2 _ rfl⟩)
  | ret => exact agreeAt_returnToCaller (hstack.imp_right fun hb => ⟨hb.1, hb.2 _ rfl⟩)
  | je | jne | jg | jge | jl | jle => exact AgreeAt.withOne fun t ht => hjump _ rfl t ht
  | prn => exact AgreeAt.withOne fun o ho => agreeAt_print (hop o ho)

end AgreeAt

end Machine

/-! ### Runs -/

/-- A failed bounds check that can be told: a fault of access. -/
def Fault.isAccess (f : Fault) : Bool := f.isBoundsCheck && f.isTold

namespace Run

open Machine

/-- The run with the checks of its machine switched on or off. -/
def withChecks (r : Run) (on : Bool) : Run :=
  ⟨⟨r.session.machine.withChecks on, r.session.monitor⟩, r.steps, r.status⟩

/-- The run failed with a fault of some kind. -/
def FailedBy (kind : Fault → Bool) (r : Run) : Prop :=
  ∃ fault, r.status = .faulted fault ∧ kind fault = true

/-- Agreement of a checked run with an unchecked one: they are copies of one run, or the checked
one failed a bounds check and is excused. -/
def Agree (excused : Prop) (checked unchecked : Run) : Prop :=
  (∃ r : Run, checked = r.withChecks true ∧ unchecked = r.withChecks false) ∨
    excused ∧ checked.FailedBy Fault.isBoundsCheck

section Agree

variable {excused : Prop} {p : Program} {r : Run}

/-- **One round.** -/
theorem advance_agree
    (h : ∀ ins, due? p r = some ins →
      excused ∨ (r.session.machine.StaysInBlock ins ∧ r.session.machine.StackAllows ins.opcode)) :
    Agree excused (advance p (r.withChecks true)) (advance p (r.withChecks false)) := by
  cases hdue : due? p r with
  | none =>
    -- how the run ends does not depend on the checks
    have hend : ∀ on, advance p (r.withChecks on)
        = ({ r with status := verdict p r } : Run).withChecks on :=
      fun on => advance_of_not_due (r := r.withChecks on) hdue
    exact Or.inl ⟨_, hend true, hend false⟩
  | some ins =>
    have hexec := execute_agreeAt (h ins hdue)
    rw [advance_of_due (r := r.withChecks true) hdue, advance_of_due (r := r.withChecks false) hdue]
    change Agree excused
      (settle _ r.steps (execute ins.opcode ins.operands (r.session.machine.withChecks true)))
      (settle _ r.steps (execute ins.opcode ins.operands (r.session.machine.withChecks false)))
    unfold AgreeAt at hexec
    generalize execute ins.opcode ins.operands (r.session.machine.withChecks true) = checked
      at hexec ⊢
    generalize execute ins.opcode ins.operands (r.session.machine.withChecks false) = unchecked
      at hexec ⊢
    cases hexec with
    | ok a m' => exact Or.inl ⟨settle _ r.steps (.ok a m'), rfl, rfl⟩
    | error fault m' => exact Or.inl ⟨settle _ r.steps (.error fault m'), rfl, rfl⟩
    | bounds he hf => exact Or.inr ⟨he, _, rfl, hf⟩

/-- **Any number of rounds.** The excuse is needed only where the unchecked run leaves the block or
comes to an instruction that the check of the stack region stops. -/
theorem after_agree
    (h : ∀ n ins, due? p (after p n (r.withChecks false)) = some ins → excused ∨
      ((after p n (r.withChecks false)).session.machine.StaysInBlock ins ∧
        (after p n (r.withChecks false)).session.machine.StackAllows ins.opcode))
    (n : Nat) : Agree excused (after p n (r.withChecks true)) (after p n (r.withChecks false)) := by
  -- every round keeps the relation, and what is due can be read off the unchecked run
  induction n with
  | zero => exact Or.inl ⟨r, rfl, rfl⟩
  | succ n ih =>
    rw [after_succ, after_succ]
    rcases ih with ⟨r', hc, hu⟩ | ⟨he, fault, hfault, hbounds⟩
    · have hn := h n
      rw [hu] at hn
      rw [hc, hu]
      exact advance_agree hn
    · -- a run that has failed makes no further round
      rw [advance_of_stopped (by rw [hfault]; simp)]
      exact Or.inr ⟨he, fault, hfault, hbounds⟩

end Agree

/-! ### An unchecked machine fails no bounds check -/

/-- Without checks no bounds check fails, whatever the instructions and the operands are. -/
def uncheckedDiscipline : Discipline where
  inv m := m.checked = false
  fault fault _ := fault.isBoundsCheck = false
  source _ := True
  target _ := True
  value _ := True
  outside _ _ := rfl
  at_end _ := rfl
  untraceable _ _ _ _ := rfl
  read_fault hm _ h := by
    rcases valueOf_eq_error h with ⟨i, -, hs⟩ | ⟨i, -, hl⟩ | ⟨name, -, rfl⟩
    · rcases slot_eq_error hs with rfl | rfl <;> rfl
    · exact locate_unchecked hm rfl hl
    · rfl
  read_value _ _ _ := trivial
  word_value _ := trivial
  write_fault hm _ h := by
    rcases stored_eq_error h with ⟨i, -, hs⟩ | ⟨i, -, hl⟩ | ⟨-, rfl⟩
    · rcases slot_eq_error hs with rfl | rfl <;> rfl
    · exact locate_unchecked hm rfl hl
    · rfl
  write_register hm _ _ h := by
    obtain ⟨s, -, rfl⟩ := registerSet_eq_ok h
    exact hm
  write_cell hm _ h := by
    obtain ⟨c, -, rfl⟩ := cellSet_eq_ok h
    exact hm
  push n hm :=
    Exec.ends_push (fun hc _ => absurd hc (by rw [hm]; simp))
      (fun _ hl => locate_unchecked hm rfl hl) fun _ _ => hm
  pop hm :=
    Exec.ends_pop (fun hc _ => absurd hc (by rw [hm]; simp))
      (fun _ hl => locate_unchecked hm rfl hl) fun _ _ => hm
  setIp _ hm := hm
  remainder hm _ := hm
  flags _ _ hm := hm
  printed _ hm := hm
  unprintable _ _ _ _ := rfl
  zero_divisor _ := rfl
  zero_modulus _ := rfl

/-- An instruction with any operands, also with too few, is within `uncheckedDiscipline`. -/
theorem uncheckedDiscipline_admits (ins : Instruction) : uncheckedDiscipline.Admits ins where
  arity := Or.inr ⟨fun _ _ => trivial, fun _ _ => rfl⟩
  fits := by
    rintro ⟨kind, o⟩ -
    cases kind with
    | target => trivial
    | source => trivial

/-- **An unchecked run** never fails a bounds check. -/
theorem unchecked_not_failedBy {p : Program} {r : Run} (hm : r.session.machine.checked = false)
    (hs : r.status = .running) (n : Nat) : ¬ (after p n r).FailedBy Fault.isBoundsCheck := by
  rintro ⟨fault, hfault, hbounds⟩
  have hr : uncheckedDiscipline.InOrder r := by
    unfold Discipline.InOrder
    rw [hs]
    exact hm
  have h : uncheckedDiscipline.InOrder (after p n r) :=
    uncheckedDiscipline.after hr (fun ins _ _ => uncheckedDiscipline_admits ins) n
  unfold Discipline.InOrder at h
  rw [hfault] at h
  rw [show fault.isBoundsCheck = false from h] at hbounds
  cases hbounds

/-! ### The comparison -/

/-- The run of a program on a machine with the checks switched on or off, after some rounds. -/
def onCopy (p : Program) (m : Machine) (w : Monitor) (on : Bool) (n : Nat) : Run :=
  after p n (start p ⟨m.withChecks on, w⟩)

/-- For as long as the checked run has failed no bounds check, the unchecked run is its copy. -/
theorem onCopy_agrees (p : Program) (m : Machine) (w : Monitor) (n : Nat)
    (h : ¬ (onCopy p m w true n).FailedBy Fault.isBoundsCheck) :
    onCopy p m w false n = (onCopy p m w true n).withChecks false := by
  have hagree : Agree True (onCopy p m w true n) (onCopy p m w false n) :=
    after_agree (r := start p ⟨m, w⟩) (fun _ _ _ => Or.inl trivial) n
  rcases hagree with ⟨r, hc, hu⟩ | ⟨-, hfailed⟩
  · rw [hc, hu]
    rfl
  · exact absurd hfailed h

/-- Two runs show the same registers, cells, flags, remainder, output and count. How they end is not
compared. -/
structure SameState (checked unchecked : Run) : Prop where
  machine : unchecked.session.machine = checked.session.machine.withChecks false
  steps : unchecked.steps = checked.steps

/-- The run has come to the end of the program, left it, or divided by zero. -/
def Concluded (r : Run) : Prop :=
  r.status = .finished ∨ r.FailedBy Fault.isExecution ∨ r.FailedBy Fault.isDivision

/-- A run that has ended in one of these ways has failed no bounds check. -/
theorem Concluded.not_failedBy {r : Run} (h : r.Concluded) : ¬ r.FailedBy Fault.isBoundsCheck := by
  rintro ⟨fault, hfault, hbounds⟩
  rcases h with hr | ⟨fault', hr, hkind⟩ | ⟨fault', hr, hkind⟩
  · rw [hr] at hfault
    cases hfault
  · obtain rfl := Status.faulted.inj (hfault.symm.trans hr)
    cases fault <;> simp [Fault.isBoundsCheck, Fault.isExecution] at hbounds hkind
  · obtain rfl := Status.faulted.inj (hfault.symm.trans hr)
    cases fault <;> simp [Fault.isBoundsCheck, Fault.isDivision] at hbounds hkind

/-- A failed bounds check that cannot be told is no fault of access. -/
theorem not_failedBy_access {r : Run} {fault : Fault} (hfault : r.status = .faulted fault)
    (ht : fault.isTold = false) : ¬ r.FailedBy Fault.isAccess := by
  rintro ⟨fault', hfault', haccess⟩
  obtain rfl : fault = fault' := Status.faulted.inj (hfault.symm.trans hfault')
  unfold Fault.isAccess at haccess
  rw [ht, Bool.and_false] at haccess
  cases haccess

/-- A failed bounds check that is no fault of access cannot be told. -/
theorem isTold_eq_false_of_not_access {r : Run} {fault : Fault} (hfault : r.status = .faulted fault)
    (hbounds : fault.isBoundsCheck = true) (h : ¬ r.FailedBy Fault.isAccess) :
    fault.isTold = false := by
  cases ht : fault.isTold with
  | false => rfl
  | true =>
    refine absurd ⟨fault, hfault, ?_⟩ h
    unfold Fault.isAccess
    rw [hbounds, ht]
    rfl

/-- **Bounds checks only add faults of access**, with one exception. The checked run and the
unchecked run of a program agree on registers, cells, flags, remainder, output, steps and status for
as long as no bounds check has failed. It follows that they agree on all of this, how the runs end
included, for as long as the checked run has met no fault of access exactly if a bounds check that
fails can always be told. They agree on all but how they end, and end alike where the checked run
ends at a sentinel, outside the program or with a division by zero, exactly if the unchecked run
shows the same state wherever the checked one failed a bounds check that cannot be told. -/
theorem checked_run_agrees_iff (p : Program) (m : Machine) (w : Monitor) :
    (∀ n, ¬ (onCopy p m w true n).FailedBy Fault.isBoundsCheck →
      onCopy p m w false n = (onCopy p m w true n).withChecks false) ∧
    ((∀ n, ¬ (onCopy p m w true n).FailedBy Fault.isAccess →
      onCopy p m w false n = (onCopy p m w true n).withChecks false) ↔
      ∀ n fault, (onCopy p m w true n).status = .faulted fault →
        fault.isBoundsCheck = true → fault.isTold = true) ∧
    ((∀ n, ¬ (onCopy p m w true n).FailedBy Fault.isAccess →
      SameState (onCopy p m w true n) (onCopy p m w false n) ∧
        ((onCopy p m w true n).Concluded →
          (onCopy p m w false n).status = (onCopy p m w true n).status)) ↔
      ∀ n fault, (onCopy p m w true n).status = .faulted fault →
        fault.isBoundsCheck = true → fault.isTold = false →
        SameState (onCopy p m w true n) (onCopy p m w false n)) := by
  refine ⟨onCopy_agrees p m w, ⟨fun hagree n fault hfault hbounds => ?_, fun htold n hn => ?_⟩,
    fun hagree n fault hfault _ ht => ?_, fun hsame n hn => ?_⟩
  · -- an untold failure would have to be shared by the unchecked run, which has none
    cases ht : fault.isTold with
    | true => rfl
    | false =>
      have hu : (onCopy p m w false n).status = .faulted fault := by
        rw [hagree n (not_failedBy_access hfault ht)]
        exact hfault
      exact absurd ⟨fault, hu, hbounds⟩ (unchecked_not_failedBy rfl rfl n)
  · -- a bounds check that fails and can be told is a fault of access
    apply onCopy_agrees
    rintro ⟨fault, hfault, hbounds⟩
    have huntold := isTold_eq_false_of_not_access hfault hbounds hn
    rw [htold n fault hfault hbounds] at huntold
    cases huntold
  · exact (hagree n (not_failedBy_access hfault ht)).1
  · by_cases hfailed : (onCopy p m w true n).FailedBy Fault.isBoundsCheck
    · -- the only case in which the unchecked run is not a copy, and it has not ended in one of the
      -- ways that are to be shared
      obtain ⟨fault, hfault, hbounds⟩ := hfailed
      refine ⟨hsame n fault hfault hbounds (isTold_eq_false_of_not_access hfault hbounds hn), ?_⟩
      exact fun hc => absurd ⟨fault, hfault, hbounds⟩ hc.not_failedBy
    · rw [onCopy_agrees p m w n hfailed]
      exact ⟨⟨rfl, rfl⟩, fun _ => rfl⟩

/-- A program of one push. -/
def onePush : Program := .make #[⟨.push, [.immediate 1]⟩] 0 .empty .empty

/-- A machine of sixteen cells whose stack base lies so far off that its stack limit, one cell
above the base, has one digit more than can be written. -/
def farBase : Machine :=
  let m := ({ cellCount := 16, checked := true } : Machine).createStack (-4)
  { m with registers := m.registers.setBp (Text.writableBound - 1) }

/-- The exception is real: the checked run fails with an overflow that cannot be told, which is no
fault of access, while the unchecked run goes on and counts its instruction. -/
theorem far_base_disagrees :
    onePush.validate = .ok () ∧
    ¬ ∀ n, ¬ (onCopy onePush farBase {} true n).FailedBy Fault.isAccess →
      SameState (onCopy onePush farBase {} true n) (onCopy onePush farBase {} false n) := by
  refine ⟨rfl, fun hagree => ?_⟩
  -- the push to cell 15 is far below the limit, and only the checked run minds
  have hc : (onCopy onePush farBase {} true 1).status
      = .faulted (.stackOverflow 15 Text.writableBound) := by decide +kernel
  have huntold : (Fault.stackOverflow 15 Text.writableBound).isTold = false := by decide +kernel
  have hsteps : (onCopy onePush farBase {} false 1).steps
      ≠ (onCopy onePush farBase {} true 1).steps := by decide +kernel
  exact hsteps (hagree 1 (not_failedBy_access hc huntold)).steps

end Run

end CellMachine
