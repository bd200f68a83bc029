import CellMachine.Fault
import CellMachine.Index
import CellMachine.Machine.Cells

/-!
# The machine

A machine has a register file, flags, a remainder, and one block of cells that serves as data and
as stack. Its size is fixed when it is created. It also keeps what it has printed.

A machine is checked or unchecked. A checked machine tests every access against the block and
every push and pop against the stack region. An unchecked one takes a negative index as counted
from the end of the block and rejects only what no cell answers to. Everything else is shared, so
the two differ in nothing but the field `checked`.

Operations are actions of `Exec`: they end in a result or in a fault, and the machine is known
after either.
-/

namespace CellMachine

/-- The number of bytes in a cell. -/
def wordSize : Nat := 4

structure Machine where
  /-- The number of cells in the block. -/
  cellCount : Nat
  /-- Accesses are tested against the block and the stack region. -/
  checked : Bool
  registers : RegisterFile := .initial
  flags : Int := 0
  remainder : Int := 0
  /-- The size in bytes that the stack was created with. -/
  stackSize : Int := 0
  cells : Cells := .zero
  /-- The block was given back and can no longer be read or written. -/
  released : Bool := false
  /-- The numbers printed so far. -/
  printed : Array Int := #[]

/-- An action on a machine, which ends in a result or a fault. -/
abbrev Exec := EStateM Fault Machine

namespace Exec

variable {α β : Type}

@[simp] theorem pure_apply (a : α) (m : Machine) : (pure a : Exec α) m = .ok a m := rfl

@[simp] theorem throw_apply (fault : Fault) (m : Machine) :
    (throw fault : Exec α) m = .error fault m := rfl

/-- A second action follows the first one only if that ended in a result. -/
@[simp] theorem bind_apply (x : Exec α) (f : α → Exec β) (m : Machine) :
    (x >>= f) m =
      match x m with
      | .ok a m => f a m
      | .error fault m => .error fault m := by
  change EStateM.bind x f m = _
  unfold EStateM.bind
  cases x m <;> rfl

@[simp] theorem get_apply (m : Machine) : (get : Exec Machine) m = .ok m m := rfl

@[simp] theorem modify_apply (f : Machine → Machine) (m : Machine) :
    (modify f : Exec Unit) m = .ok () (f m) := rfl

end Exec

namespace Machine

/-- The number of bytes in the block. -/
def size (m : Machine) : Nat := m.cellCount * wordSize

/-! ### Creation -/

/-- The reasons for which a block is not provided. -/
inductive AllocationFault where
  /-- The size is not a positive multiple of the cell size. -/
  | badSize
  /-- There is no room for a block of that size. -/
  | outOfMemory
  /-- The size is no signed 64-bit number. -/
  | wideSize
  deriving DecidableEq, Repr

def AllocationFault.message : AllocationFault → String
  | .badSize => s!"memory size must be a positive multiple of {wordSize}"
  | .outOfMemory => ""
  | .wideSize => "cannot fit 'int' into an index-sized integer"

/-- Blocks of this many bytes and more are not provided. -/
def sizeLimit : Int := 1152921504606846976

/-- A machine with a block of `size` bytes, all cells and registers zero and no stack. -/
def create (size : Int) (checked : Bool) : Except AllocationFault Machine :=
  if size ≤ 0 ∨ size % wordSize ≠ 0 then .error .badSize
  else if ¬ Index.Fits size then .error .wideSize
  else if sizeLimit ≤ size then .error .outOfMemory
  else .ok { cellCount := (size / wordSize).toNat, checked }

/-- Give the block back. -/
def release (m : Machine) : Machine := { m with released := true, cells := .zero }

/-! ### Cells -/

/-- The cell that index `i` refers to. A checked machine tests the index before it looks at the
block; `whenReleased` is the fault of a block that was given back. -/
def locate (m : Machine) (whenReleased : Fault) (i : Int) : Except Fault Nat :=
  if m.checked ∧ ¬ (0 ≤ i ∧ i < m.cellCount) then .error (.outsideBlock i m.cellCount)
  else if m.released then .error whenReleased
  else if ¬ Index.Fits i then .error .wideIndex
  else match Index.fromEnd? m.cellCount i with
    | some c => .ok c.val
    | none => .error .noSuchCell

def readCell (i : Int) : Exec Int := fun m =>
  match m.locate .releasedRead i with
  | .ok c => .ok (m.cells.get c) m
  | .error fault => .error fault m

/-- Store the signed 32-bit word of a number. -/
def writeCell (i v : Int) : Exec Unit := fun m =>
  match m.locate .releasedWrite i with
  | .ok c => .ok () { m with cells := m.cells.set c (Word.wrap v) }
  | .error fault => .error fault m

/-! ### Registers -/

/-- The slot that index `i` refers to; a negative index counts from the last slot. -/
def slot (missing : Fault) (i : Int) : Except Fault Slot :=
  if ¬ Index.Fits i then .error .wideIndex
  else match Index.fromEnd? slotCount i with
    | some s => .ok s
    | none => .error missing

def getRegister (i : Int) : Exec Value := fun m =>
  match slot .noSuchRegister i with
  | .ok s => .ok (m.registers.get s) m
  | .error fault => .error fault m

/-- Store a value as it is. -/
def setRegister (i : Int) (v : Value) : Exec Unit := fun m =>
  match slot .noSuchTarget i with
  | .ok s => .ok () { m with registers := m.registers.set s v }
  | .error fault => .error fault m

def readRegister (i : Int) : Exec Int := do
  return (← getRegister i).toInt

/-- Store the signed 32-bit word of a number. -/
def writeRegister (i v : Int) : Exec Unit := setRegister i (.int (Word.wrap v))

/-- Set the stack pointer. -/
def setSp (m : Machine) (cell : Int) : Machine := { m with registers := m.registers.setSp cell }

/-- Set the instruction pointer. -/
def setIp (m : Machine) (index : Int) : Machine := { m with registers := m.registers.setIp index }

/-! ### Operands -/

/-- The number an operand refers to. -/
def load : Operand → Exec Int
  | .register i => readRegister i
  | .cell i => readCell i
  | .immediate v => pure v
  | .label name => throw (.unresolved name)

/-- Write a number through an operand. -/
def store (operand : Operand) (v : Int) : Exec Unit :=
  match operand with
  | .register i => writeRegister i v
  | .cell i => writeCell i v
  | .immediate _ | .label _ => throw (.readOnly operand)

/-- The value an operand refers to; only a register can give an address. -/
def loadValue : Operand → Exec Value
  | .register i => getRegister i
  | operand => do return .int (← load operand)

/-- Write a value through an operand. A register keeps it as it is, a cell its number. -/
def storeValue (operand : Operand) (v : Value) : Exec Unit :=
  match operand with
  | .register i => setRegister i v
  | operand => store operand v.toInt

/-! ### The stack

The stack takes the top of the block and grows downward. The stack base lies one cell past its
highest cell, and the stack pointer at its lowest occupied one. -/

/-- Reserve the top `size` bytes as an empty stack. -/
def createStack (m : Machine) (size : Int) : Machine :=
  { m with
    stackSize := size
    registers := (m.registers.setBp m.cellCount).setSp m.cellCount }

/-- The lowest cell of the stack region. -/
def stackLimit (m : Machine) : Int := m.registers.bp - m.stackSize / wordSize

/-- The number of words on the stack. -/
def stackDepth (m : Machine) : Int := m.registers.bp - m.registers.sp

/-- Put a number on the stack. The stack pointer moves before the cell is written. -/
def push (item : Int) : Exec Unit := fun m =>
  let cell := m.registers.sp - 1
  if m.checked ∧ cell < m.stackLimit then .error (.stackOverflow cell m.stackLimit) m
  else writeCell cell item (m.setSp cell)

/-- Take a number off the stack. The cell is read before the stack pointer moves. -/
def pop : Exec Int := fun m =>
  let cell := m.registers.sp
  if m.checked ∧ m.registers.bp ≤ cell then .error (.stackUnderflow cell) m
  else match readCell cell m with
    | .ok item m => .ok item (m.setSp (cell + 1))
    | .error fault m => .error fault m

/-! ### Output -/

/-- What the printed numbers look like: each on a line of its own. -/
def linesOf (printed : List Int) : String :=
  String.join (printed.map fun n => toString n ++ "\n")

def output (m : Machine) : String := linesOf m.printed.toList

end Machine

end CellMachine
