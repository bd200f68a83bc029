import CellMachine.Assembly.Line
import Mathlib.Data.List.Forall2

/-!
# Parsed lines

What stands in a line once its tokens were read. An instruction is parsed exactly if its mnemonic
names an opcode and the tokens after it are one operand for each kind of the signature
(`parseInstruction_eq_ok_iff`). An operand that was read for a kind is one that the kind may have,
with its register, cell or number in range (`written_of_operandFor?`).

So the instruction of a line can be written in source text (`Line.written_of_instruction?`), and the
labels before it have names of labels (`Line.isLabelName_of_mem_labels`).
-/

namespace CellMachine

/-- An operand can be written in source text as its kind asks for. A label stands for a number, so
it is only read. -/
def Operand.Written : OperandKind → Operand → Prop
  | _, .register index => 0 ≤ index ∧ index < slotCount
  | _, .cell index => 0 ≤ index ∧ index ≤ Word.maximum
  | .source, .immediate value => Word.InRange value
  | .source, .label name => Assembly.isLabelName name = true
  | .target, .immediate _ | .target, .label _ => False

/-- An operand that can be read can be written to if it is a register or a cell. -/
theorem Operand.Written.target {o : Operand} (h : o.Written .source) (hw : o.isWritable = true) :
    o.Written .target := by
  cases o with
  | register index => exact h
  | cell index => exact h
  | immediate value => cases hw
  | label name => cases hw

/-- An operand that can be written to can also be read. -/
theorem Operand.Written.source {kind : OperandKind} {o : Operand} (h : o.Written kind) :
    o.Written .source := by
  cases kind with
  | source => exact h
  | target =>
    cases o with
    | register index => exact h
    | cell index => exact h
    | immediate value => exact h.elim
    | label name => exact h.elim

/-- An instruction can be written in source text. -/
structure Instruction.Written (ins : Instruction) : Prop where
  executable : ins.opcode ∈ Opcode.executable
  operands : List.Forall₂ Operand.Written ins.opcode.signature ins.operands

theorem Instruction.Written.ne_stop {ins : Instruction} (h : ins.Written) : ins.opcode ≠ .stop := by
  intro hstop
  have hmem := h.executable
  rw [hstop] at hmem
  revert hmem
  decide

namespace Assembly

/-! ### Operands -/

theorem readValue_inRange {text : String} {v : Int} (h : readValue text = .ok v) :
    Word.InRange v := by
  unfold readValue at h
  split at h
  · cases h
  · split at h
    · next hv =>
      obtain rfl := Except.ok.inj h
      exact hv
    · cases h

theorem written_of_cellOf? {inner : String} {o : Operand} (h : cellOf? inner = some o)
    (kind : OperandKind) : o.Written kind := by
  unfold cellOf? at h
  split at h
  · next index hread =>
    split at h
    · cases h
    · next hneg =>
      obtain rfl := Option.some.inj h
      have hrange : 0 ≤ index ∧ index ≤ Word.maximum :=
        ⟨Int.not_lt.mp hneg, (readValue_inRange hread).2⟩
      cases kind with
      | target => exact hrange
      | source => exact hrange
  · cases h

/-- A token for a source stands for an operand that can be read. -/
theorem written_of_operandOf? {token : String} {o : Operand} (h : operandOf? token = some o) :
    o.Written .source := by
  unfold operandOf? at h
  split at h
  · next slot hslot =>
    obtain rfl := Option.some.inj h
    exact ⟨Int.natCast_nonneg _, Int.ofNat_lt.mpr slot.isLt⟩
  · split at h
    · exact written_of_cellOf? h .source
    · split at h
      · next v hread =>
        obtain rfl := Option.some.inj h
        exact readValue_inRange hread
      · split at h
        · next hname =>
          obtain rfl := Option.some.inj h
          exact hname
        · cases h

/-- A token that was read for a kind stands for an operand that the kind may have. -/
theorem written_of_operandFor? {kind : OperandKind} {token : String} {o : Operand}
    (h : operandFor? kind token = some o) : o.Written kind := by
  cases kind with
  | source => exact written_of_operandOf? h
  | target =>
    obtain ⟨hread, hw⟩ := Option.filter_eq_some_iff.mp h
    exact Operand.Written.target (written_of_operandOf? hread) hw

/-! ### Instructions -/

/-- Tokens stand for operands of the given kinds, one token and one operand for each kind. -/
inductive StandFor : List OperandKind → List String → List Operand → Prop
  | nil : StandFor [] [] []
  | cons {kind : OperandKind} {kinds : List OperandKind} {token : String} {tokens : List String}
      {o : Operand} {os : List Operand} (head : operandFor? kind token = some o)
      (tail : StandFor kinds tokens os) : StandFor (kind :: kinds) (token :: tokens) (o :: os)

theorem StandFor.written {kinds : List OperandKind} {tokens : List String} {os : List Operand}
    (h : StandFor kinds tokens os) : List.Forall₂ Operand.Written kinds os := by
  induction h with
  | nil => exact .nil
  | cons head _ ih => exact .cons (written_of_operandFor? head) ih

theorem parseOperands_eq_ok_iff {position : Nat} {kinds : List OperandKind}
    {tokens rest : List String} {os : List Operand} :
    parseOperands position kinds tokens = .ok (os, rest) ↔
      ∃ used, tokens = used ++ rest ∧ StandFor kinds used os := by
  induction kinds generalizing position tokens os with
  | nil =>
    constructor
    · intro h
      obtain ⟨rfl, rfl⟩ := Prod.mk.inj (Except.ok.inj h)
      exact ⟨[], rfl, .nil⟩
    · rintro ⟨used, rfl, hused⟩
      cases hused
      rfl
  | cons kind kinds ih =>
    constructor
    · intro h
      cases tokens with
      | nil => cases h
      | cons token tokens =>
        rw [parseOperands] at h
        split at h
        · cases h
        · next o head =>
          -- the other operands were parsed from the next position on
          split at h
          · cases h
          · next os' rest' htail =>
            obtain ⟨rfl, rfl⟩ := Prod.mk.inj (Except.ok.inj h)
            obtain ⟨used, rfl, hused⟩ := ih.mp htail
            exact ⟨token :: used, rfl, .cons head hused⟩
    · rintro ⟨used, rfl, hused⟩
      cases hused with
      | cons head tail =>
        rw [List.cons_append, parseOperands, head]
        simp only [ih.mpr ⟨_, rfl, tail⟩]

/-- **An instruction is parsed** exactly if its mnemonic names its opcode and its tokens stand for
its operands. -/
theorem parseInstruction_eq_ok_iff {mnemonic : String} {tokens : List String} {ins : Instruction} :
    parseInstruction mnemonic tokens = .ok ins ↔
      Opcode.ofMnemonic? mnemonic = some ins.opcode ∧
        StandFor ins.opcode.signature tokens ins.operands := by
  unfold parseInstruction
  constructor
  · intro h
    split at h
    · cases h
    · next opcode hopcode =>
      split at h
      · cases h
      · cases h
      · next os hos =>
        obtain rfl := Except.ok.inj h
        obtain ⟨used, rfl, hused⟩ := parseOperands_eq_ok_iff.mp hos
        rw [List.append_nil]
        exact ⟨hopcode, hused⟩
  · rintro ⟨hopcode, hstand⟩
    have hos : parseOperands 1 ins.opcode.signature tokens = .ok (ins.operands, []) :=
      parseOperands_eq_ok_iff.mpr ⟨tokens, (List.append_nil tokens).symm, hstand⟩
    rw [hopcode]
    simp only [hos]

theorem written_of_parseInstruction {mnemonic : String} {tokens : List String} {ins : Instruction}
    (h : parseInstruction mnemonic tokens = .ok ins) : ins.Written := by
  obtain ⟨hopcode, hstand⟩ := parseInstruction_eq_ok_iff.mp h
  exact ⟨List.mem_of_find?_eq_some hopcode, hstand.written⟩

/-! ### Lines -/

/-- What a token that sets a label looks like. -/
theorem labelOf?_eq_some_iff {token name : String} :
    labelOf? token = some name ↔ token = name ++ ":" ∧ isLabelName name = true := by
  unfold labelOf?
  constructor
  · intro h
    split at h
    · next cs hcs =>
      dsimp only at h
      split at h
      · next hname =>
        obtain rfl := Option.some.inj h
        refine ⟨String.toList_injective ?_, hname⟩
        rw [String.toList_append, String.toList_ofList, ← List.reverse_reverse token.toList, hcs,
          List.reverse_cons]
        rfl
      · cases h
    · cases h
  · rintro ⟨rfl, hname⟩
    have hrev : (name ++ ":").toList.reverse = ':' :: name.toList.reverse := by
      rw [String.toList_append, List.reverse_append]
      rfl
    rw [hrev]
    simp only [List.reverse_reverse, String.ofList_toList, hname, if_true]

namespace Line

/-- The instruction of a line, if it has one that was parsed. -/
def instruction? (l : Line) : Option Instruction :=
  match l.statement with
  | .instruction ins => some ins
  | _ => none

theorem instruction?_eq_some_iff {l : Line} {ins : Instruction} :
    l.instruction? = some ins ↔ l.statement = .instruction ins := by
  obtain ⟨labels, statement⟩ := l
  cases statement with
  | none => simp [instruction?]
  | instruction ins' => simp [instruction?]
  | malformed fault => simp [instruction?]

/-- The instruction of a line can be written in source text. -/
theorem written_of_instruction? {tokens : List String} {ins : Instruction}
    (h : (ofTokens tokens).instruction? = some ins) : ins.Written := by
  rw [instruction?_eq_some_iff] at h
  induction tokens with
  | nil => cases h
  | cons token rest ih =>
    rw [ofTokens] at h
    split at h
    · exact ih h
    · split at h
      · next ins' hins =>
        obtain rfl := Statement.instruction.inj h
        exact written_of_parseInstruction hins
      · cases h

/-- The labels of a line have names of labels. -/
theorem isLabelName_of_mem_labels {tokens : List String} {name : String}
    (h : name ∈ (ofTokens tokens).labels) : isLabelName name = true := by
  induction tokens with
  | nil => cases h
  | cons token rest ih =>
    rw [ofTokens] at h
    split at h
    · next name' hname =>
      rcases List.mem_cons.mp h with rfl | hrest
      · exact (labelOf?_eq_some_iff.mp hname).2
      · exact ih hrest
    · -- labels stand before the instruction only
      split at h
      · cases h
      · cases h

end Line

end Assembly

end CellMachine
