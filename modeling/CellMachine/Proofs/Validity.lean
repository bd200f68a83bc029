import CellMachine.Program

/-!
# What validation promises

`Program.validate` looks through a program and reports the first defect. What an accepted program
promises is stated here without the order in which it was checked: its start lies in it, and every
instruction is well-formed (`Program.validate_eq_ok_iff`). The end of a program has no operands to
look at; every other instruction has the operands that its signature asks for, each fit for its
kind. A program is closed with a sentinel when it is installed, and stays valid
(`Program.validate_make`).
-/

namespace CellMachine

/-- An operand can be used as its kind asks for: a register exists, a cell has an index from the
front, and an immediate is a word that is only read. -/
def Operand.WellFormed : OperandKind → Operand → Prop
  | _, .register index => 0 ≤ index ∧ index < slotCount
  | _, .cell index => 0 ≤ index
  | .source, .immediate value => Word.InRange value
  | .target, .immediate _ => False
  | _, .label _ => False

/-- An instruction has the operands that its signature asks for. -/
structure Instruction.WellFormed (ins : Instruction) : Prop where
  arity : ins.operands.length = ins.opcode.signature.length
  operands : ∀ x ∈ ins.opcode.signature.zip ins.operands, Operand.WellFormed x.1 x.2

/-- An instruction writes an operand: it is used as a target. -/
def Instruction.Writes (ins : Instruction) (o : Operand) : Prop :=
  (OperandKind.target, o) ∈ ins.opcode.signature.zip ins.operands

instance (ins : Instruction) (o : Operand) : Decidable (ins.Writes o) :=
  inferInstanceAs (Decidable (_ ∈ _))

/-- Every operand of a well-formed instruction is used as some kind. -/
theorem Instruction.WellFormed.operand {ins : Instruction} (h : ins.WellFormed) {o : Operand}
    (ho : o ∈ ins.operands) : ∃ kind, (kind, o) ∈ ins.opcode.signature.zip ins.operands := by
  obtain ⟨i, hi, rfl⟩ := List.getElem_of_mem ho
  -- there are as many kinds as operands, so the operand has a partner
  have hi' : i < (ins.opcode.signature.zip ins.operands).length := by
    rw [List.length_zip, ← h.arity, Nat.min_self]
    exact hi
  refine ⟨(ins.opcode.signature.zip ins.operands)[i].1, ?_⟩
  have hmem := List.getElem_mem hi'
  rw [List.getElem_zip] at hmem ⊢
  exact hmem

/-- A register that a well-formed instruction names exists. -/
theorem Instruction.WellFormed.register {ins : Instruction} (h : ins.WellFormed) {i : Int}
    (hi : Operand.register i ∈ ins.operands) : 0 ≤ i ∧ i < slotCount := by
  obtain ⟨kind, hmem⟩ := h.operand hi
  have hwf := h.operands _ hmem
  cases kind with
  | target => exact hwf
  | source => exact hwf

/-- An instruction of one kind of operand has one operand. -/
theorem Instruction.WellFormed.one_operand {ins : Instruction} {kind : OperandKind}
    (h : ins.WellFormed) (hkind : ins.opcode.signature = [kind]) : ∃ o, ins.operands = [o] := by
  apply List.length_eq_one_iff.mp
  rw [h.arity, hkind]
  rfl

/-- An instruction of two kinds of operands has two operands. -/
theorem Instruction.WellFormed.two_operands {ins : Instruction} {first second : OperandKind}
    (h : ins.WellFormed) (hkinds : ins.opcode.signature = [first, second]) :
    ∃ a b, ins.operands = [a, b] := by
  have hlength := h.arity
  rw [hkinds] at hlength
  match ins.operands, hlength with
  | [a, b], _ => exact ⟨a, b, rfl⟩

namespace Program

/-- An operand passes its check exactly if it is fit for its kind. -/
theorem checkOperand_eq_ok_iff {opcode : Opcode} {kind : OperandKind} {o : Operand} :
    checkOperand opcode kind o = .ok () ↔ Operand.WellFormed kind o := by
  cases o with
  | register index =>
    by_cases h : 0 ≤ index ∧ index < slotCount <;> cases kind <;>
      simp [checkOperand, Operand.WellFormed, h]
  | cell index =>
    by_cases h : index < 0
    · cases kind <;> simp [checkOperand, Operand.WellFormed, h]
    · cases kind <;> simp [checkOperand, Operand.WellFormed, h, Int.not_lt.mp h]
  | immediate value =>
    cases kind with
    | target => simp [checkOperand, Operand.WellFormed]
    | source => by_cases h : Word.InRange value <;> simp [checkOperand, Operand.WellFormed, h]
  | label name =>
    cases kind <;> simp [checkOperand, Operand.WellFormed]

/-- Operands pass exactly if each does. -/
theorem checkOperands_eq_ok_iff {opcode : Opcode} {kinds : List OperandKind} {os : List Operand} :
    checkOperands opcode kinds os = .ok () ↔ ∀ x ∈ kinds.zip os, Operand.WellFormed x.1 x.2 := by
  induction kinds generalizing os with
  | nil => simp [checkOperands]
  | cons kind kinds ih =>
    cases os with
    | nil => simp [checkOperands]
    | cons o os =>
      rw [List.zip_cons_cons, List.forall_mem_cons]
      -- the first operand decides whether the others are looked at
      cases h : checkOperand opcode kind o with
      | ok a =>
        have hwf : Operand.WellFormed kind o := checkOperand_eq_ok_iff.mp h
        simp only [checkOperands, h, ih, hwf, true_and]
      | error defect =>
        have hwf : ¬ Operand.WellFormed kind o := by
          rw [← @checkOperand_eq_ok_iff opcode, h]
          simp
        simp [checkOperands, h, hwf]

/-- An instruction passes exactly if it is a sentinel or well-formed. -/
theorem checkInstruction_eq_ok_iff {ins : Instruction} :
    checkInstruction ins = .ok () ↔ (ins.opcode ≠ .stop → ins.WellFormed) := by
  unfold checkInstruction
  by_cases hstop : ins.opcode = .stop
  · simp [hstop]
  · rw [if_neg hstop]
    by_cases hlen : ins.operands.length = ins.opcode.signature.length
    · rw [if_neg (not_not_intro hlen), checkOperands_eq_ok_iff]
      exact ⟨fun h _ => ⟨hlen, h⟩, fun h => (h hstop).operands⟩
    · rw [if_pos hlen]
      constructor
      · intro h
        cases h
      · intro h
        exact absurd (h hstop).arity hlen

/-- A program passes exactly if each of its instructions does. -/
theorem checkFrom_eq_ok_iff {index : Nat} {body : List Instruction} :
    checkFrom index body = .ok () ↔ ∀ ins ∈ body, ins.opcode ≠ .stop → ins.WellFormed := by
  induction body generalizing index with
  | nil => simp [checkFrom]
  | cons ins body ih =>
    rw [List.forall_mem_cons, ← checkInstruction_eq_ok_iff]
    cases h : checkInstruction ins with
    | ok a => simp only [checkFrom, h, ih, true_and]
    | error defect => simp [checkFrom, h]

/-- **What validation promises.** -/
theorem validate_eq_ok_iff {p : Program} :
    p.validate = .ok () ↔
      (0 ≤ p.start ∧ p.start < p.size) ∧
        ∀ ins ∈ p.instructions, ins.opcode ≠ .stop → ins.WellFormed := by
  unfold validate
  -- the start is checked before the instructions
  by_cases hstart : 0 ≤ p.start ∧ p.start < p.size
  · rw [if_neg (not_not_intro hstart), checkFrom_eq_ok_iff]
    simp only [Array.mem_toList_iff]
    exact ⟨fun h => ⟨hstart, h⟩, And.right⟩
  · rw [if_pos hstart]
    constructor
    · intro h
      cases h
    · intro h
      exact absurd h.1 hstart

/-- What can be executed in a valid program is well-formed. -/
theorem wellFormed_of_validate {p : Program} (h : p.validate = .ok ()) {ins : Instruction}
    (hins : ins ∈ p.instructions) (hstop : ins.opcode ≠ .stop) : ins.WellFormed :=
  (validate_eq_ok_iff.mp h).2 ins hins hstop

/-! ### Closing a program -/

/-- A closed program has no new instructions but a sentinel. -/
theorem mem_closed {body : Array Instruction} {ins : Instruction} (h : ins ∈ closed body) :
    ins ∈ body ∨ ins.opcode = .stop := by
  unfold closed at h
  split at h
  · split at h
    · exact Or.inl h
    · rcases Array.mem_push.mp h with hb | rfl
      · exact Or.inl hb
      · exact Or.inr rfl
  · obtain rfl := Array.mem_singleton.mp h
    exact Or.inr rfl

/-- Closing a program takes nothing from it. -/
theorem size_le_size_closed (body : Array Instruction) : body.size ≤ (closed body).size := by
  unfold closed
  split
  · split
    · exact Nat.le_refl _
    · rw [Array.size_push]
      exact Nat.le_succ _
  · next hb =>
    -- only the empty sequence has no last instruction
    rw [Array.back?_eq_none_iff.mp hb]
    exact Nat.zero_le _

/-- What was closed ends in an end. -/
theorem exists_back?_closed (body : Array Instruction) :
    ∃ ins, (closed body).back? = some ins ∧ ins.opcode = .stop := by
  unfold closed
  split
  · next ins hlast =>
    split
    · next hstop => exact ⟨ins, hlast, hstop⟩
    · exact ⟨.sentinel, Array.back?_push, rfl⟩
  · exact ⟨.sentinel, rfl, rfl⟩

/-- Instructions that do not stop get a sentinel. -/
theorem closed_eq_push {body : Array Instruction} (h : ∀ ins ∈ body, ins.opcode ≠ .stop) :
    closed body = body.push .sentinel := by
  unfold closed
  split
  · next ins hlast =>
    rw [if_neg (h ins (Array.mem_of_back? hlast))]
  · next hlast =>
    rw [Array.back?_eq_none_iff.mp hlast]
    rfl

/-- The program as it is installed, closed with a sentinel. -/
def installed (p : Program) : Program := .make p.instructions p.start p.defines p.labels

/-- A sentinel that is added changes nothing about the validity of a program. -/
theorem validate_make {p : Program} (h : p.validate = .ok ()) :
    (make p.instructions p.start p.defines p.labels).validate = .ok () := by
  rw [validate_eq_ok_iff] at h ⊢
  obtain ⟨⟨hlow, hhigh⟩, hbody⟩ := h
  refine ⟨⟨hlow, ?_⟩, fun ins hins hstop => ?_⟩
  · have hsize := size_le_size_closed p.instructions
    change p.start < (closed p.instructions).size
    change p.start < p.instructions.size at hhigh
    omega
  · -- the sentinel that was added is not looked at
    exact hbody ins ((mem_closed hins).resolve_right hstop) hstop

end Program

end CellMachine
