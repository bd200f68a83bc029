import CellMachine.Instruction
import CellMachine.Text.Integer

/-!
# Faults

What can go wrong when a machine follows a reference or executes an instruction. A fault is a
cause with the numbers that belong to it; `Fault.message` words it.

No number of more than `Text.digitLimit` digits is written, and to try is an error of its own, the
same wherever it happens. Where the number is printed or stands in the line of a trace, that error
is the fault (`Fault.unwritable`). Where it belongs to another fault, it takes the place of that
fault: the fault cannot be told (`Fault.isTold`), and a host is given the error instead.

The faults fall into groups. Leaving the program, a checked access to the block or the stack, and
a zero divisor are faults of the running program. An index that the unchecked block rejects is
one too, but it is not foreseen by a host. The remaining faults come only from references that
validation excludes, from numbers with too many digits, from a released block and from a context
without a machine.
-/

namespace CellMachine

inductive Fault where
  /-- A division by zero. -/
  | zeroDivisor
  /-- A remainder of a division by zero. -/
  | zeroModulus
  /-- The instruction to execute is the end of the program. -/
  | atEnd (index : Int)
  /-- The instruction pointer is outside the program. -/
  | outsideProgram (index : Int) (count : Nat)
  /-- A checked access outside the block. -/
  | outsideBlock (cell : Int) (count : Nat)
  /-- A checked push below the stack region. -/
  | stackOverflow (cell limit : Int)
  /-- A checked pop of the empty stack. -/
  | stackUnderflow (cell : Int)
  /-- An unchecked access that no cell answers to. -/
  | noSuchCell
  /-- An index that is no signed 64-bit number. -/
  | wideIndex
  /-- A read of a slot that does not exist. -/
  | noSuchRegister
  /-- A write of a slot that does not exist. -/
  | noSuchTarget
  /-- A write to an operand that is neither a register nor a cell. -/
  | readOnly (operand : Operand)
  /-- A read of a label that was not resolved. -/
  | unresolved (name : String)
  /-- A read of a released block. -/
  | releasedRead
  /-- A write to a released block. -/
  | releasedWrite
  /-- An instruction without the operand it needs. -/
  | missingOperand
  /-- A number that is to be printed or traced has too many digits to be written. -/
  | unwritable
  /-- The machine of the context was destroyed. -/
  | destroyed
  deriving DecidableEq, Repr

namespace Fault

/-- The numbers that the wording of a fault holds, sizes apart. -/
def numbers : Fault → List Int
  | .atEnd index | .outsideProgram index _ => [index]
  | .outsideBlock cell _ | .stackUnderflow cell => [cell]
  | .stackOverflow cell limit => [cell, limit]
  | .readOnly operand => operand.numbers
  | _ => []

/-- A host is given the fault as what it is: each number of it has few enough digits to be
written. -/
def isTold : Fault → Bool
  | .unwritable => false
  | f => f.numbers.all Text.isWritable

def wording : Fault → String
  | .zeroDivisor => "integer division by zero"
  | .zeroModulus => "integer modulo by zero"
  | .atEnd index => s!"instruction {index} is the end of the program"
  | .outsideProgram index count =>
    s!"instruction index {index} outside program of {count} instructions"
  | .outsideBlock cell count => s!"cell {cell} outside memory of {count} cells"
  | .stackOverflow cell limit => s!"push to cell {cell} below stack limit {limit}"
  | .stackUnderflow cell => s!"pop at cell {cell} past stack base"
  | .noSuchCell => "index out of bounds on dimension 1"
  | .wideIndex => "cannot fit 'int' into an index-sized integer"
  | .noSuchRegister => "list index out of range"
  | .noSuchTarget => "list assignment index out of range"
  | .readOnly operand => s!"operand {operand.text} is not writable"
  | .unresolved name => "unresolved label " ++ Text.quoted name
  | .releasedRead => "'NoneType' object is not subscriptable"
  | .releasedWrite => "'NoneType' object does not support item assignment"
  | .missingOperand => "tuple index out of range"
  | .unwritable => Text.tooLongToShow
  | .destroyed => "the context is destroyed"

def message (f : Fault) : String := if f.isTold then f.wording else Text.tooLongToShow

/-- The fault is a bounds check of the block or the stack. -/
def isBoundsCheck : Fault → Bool
  | .outsideBlock _ _ | .stackOverflow _ _ | .stackUnderflow _ => true
  | _ => false

/-- The instruction pointer left the program. -/
def isExecution : Fault → Bool
  | .atEnd _ | .outsideProgram _ _ => true
  | _ => false

/-- A divisor was zero. -/
def isDivision : Fault → Bool
  | .zeroDivisor | .zeroModulus => true
  | _ => false

/-- The fault is one that a host foresees of a running program. -/
def isRuntime (f : Fault) : Bool := f.isBoundsCheck || f.isExecution || f.isDivision

/-- A host that watches for the faults it foresees meets this one as one of them. -/
def isCaught (f : Fault) : Bool := f.isRuntime && f.isTold

end Fault

end CellMachine
