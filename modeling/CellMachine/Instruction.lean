import CellMachine.Opcode
import CellMachine.Register
import CellMachine.Text.Quoted

/-!
# Operands and instructions

An operand refers to a register slot, a memory cell or a literal number; while a program is being
assembled it may also refer to a label. Indices are kept as they were given: whether a slot or a
cell exists is checked when a program is validated and when a machine follows the reference.
-/

namespace CellMachine

inductive Operand where
  | register (index : Int)
  | cell (index : Int)
  | immediate (value : Int)
  | label (name : String)
  deriving DecidableEq, Repr

namespace Operand

def text : Operand → String
  | .register index =>
    if h : 0 ≤ index ∧ index < slotCount then Slot.name ⟨index.toNat, by omega⟩
    else "reg" ++ toString index
  | .cell index => "[" ++ toString index ++ "]"
  | .immediate value => toString value
  | .label name => "LabelRef(name=" ++ Text.quoted name ++ ")"

/-- The numbers that the text of an operand holds. A slot that exists is written by its name. -/
def numbers : Operand → List Int
  | .register index => if 0 ≤ index ∧ index < slotCount then [] else [index]
  | .cell index => [index]
  | .immediate value => [value]
  | .label _ => []

def isLabel : Operand → Bool
  | .label _ => true
  | _ => false

/-- The operand can be written: it is a register or a memory cell. -/
def isWritable : Operand → Bool
  | .register _ | .cell _ => true
  | _ => false

end Operand

structure Instruction where
  opcode : Opcode
  operands : List Operand := []
  deriving DecidableEq, Repr

namespace Instruction

/-- The instruction that ends a program. -/
def sentinel : Instruction := ⟨.stop, []⟩

/-- The mnemonic, in a column of six when operands follow it. -/
def text (ins : Instruction) : String :=
  if ins.operands.isEmpty then ins.opcode.mnemonic
  else Text.padRight 6 ins.opcode.mnemonic ++ ", ".intercalate (ins.operands.map Operand.text)

end Instruction

end CellMachine
