import CellMachine.Index
import CellMachine.Instruction
import CellMachine.Table
import CellMachine.Text.Column

/-!
# Programs

A program is a sequence of instructions that ends in the sentinel, an index at which it starts,
and the tables of defines and labels it was assembled with, which execution never reads.

* `Program.make` closes a sequence of instructions with the sentinel;
* `Program.validate` checks what a machine relies on and reports the first `Program.Defect`;
* `Program.listing` shows the program with its labels, one instruction a line.
-/

namespace CellMachine

structure Program where
  instructions : Array Instruction
  start : Int := 0
  defines : Table String := .empty
  labels : Table Int := .empty
  deriving DecidableEq, Repr

namespace Program

/-- The instructions with a sentinel at the end, which is added when they do not end in one. -/
def closed (body : Array Instruction) : Array Instruction :=
  match body.back? with
  | some ins => if ins.opcode = .stop then body else body.push .sentinel
  | none => #[.sentinel]

def make (body : Array Instruction) (start : Int) (defines : Table String)
    (labels : Table Int) : Program :=
  ⟨closed body, start, defines, labels⟩

/-- The program that stops at once. -/
def empty : Program := ⟨#[.sentinel], 0, .empty, .empty⟩

/-- The number of instructions, the sentinel included. -/
def size (p : Program) : Nat := p.instructions.size

/-- The instruction at an index from the front. -/
def instruction? (p : Program) (index : Int) : Option Instruction :=
  if 0 ≤ index then p.instructions[index.toNat]? else none

/-! ### Look-up by a signed position -/

inductive LookupFault where
  | outOfRange
  | tooWide
  deriving DecidableEq, Repr

def LookupFault.message : LookupFault → String
  | .outOfRange => "tuple index out of range"
  | .tooWide => "cannot fit 'int' into an index-sized integer"

/-- The instruction at a position; a negative one counts from the end. -/
def lookup (p : Program) (index : Int) : Except LookupFault Instruction :=
  if ¬ Index.Fits index then .error .tooWide
  else match Index.fromEnd? p.instructions.size index with
    | some i => .ok (p.instructions[i])
    | none => .error .outOfRange

/-! ### Validation -/

/-- What makes an instruction unfit to be executed. -/
inductive InstructionDefect where
  | arity (opcode : Opcode) (got : Nat)
  | noSuchRegister (index : Int)
  | negativeCell (index : Int)
  | writesImmediate (opcode : Opcode)
  | wideImmediate (value : Int)
  | unresolved (operand : Operand)
  deriving DecidableEq, Repr

def InstructionDefect.message : InstructionDefect → String
  | .arity opcode got =>
    s!"{opcode.mnemonic} takes {opcode.signature.length} operand(s), got {got}"
  | .noSuchRegister index => s!"register slot {index} does not exist"
  | .negativeCell index => s!"negative memory cell {index}"
  | .writesImmediate opcode => s!"{opcode.mnemonic} cannot write to an immediate"
  | .wideImmediate value => s!"immediate {value} does not fit in 32 bits"
  | .unresolved operand => s!"unresolved operand {operand.text}"

/-- What makes a program unfit to be executed. -/
inductive Defect where
  | badStart (start : Int) (count : Nat)
  | instruction (index : Nat) (defect : InstructionDefect)
  deriving DecidableEq, Repr

def Defect.message : Defect → String
  | .badStart start count => s!"start index {start} outside program of {count}"
  | .instruction index defect => s!"Instruction {index}: " ++ defect.message

/-- The instruction at fault, when it is one. -/
def Defect.index? : Defect → Option Nat
  | .badStart _ _ => none
  | .instruction index _ => some index

/-- An operand fits its kind. -/
def checkOperand (opcode : Opcode) (kind : OperandKind) :
    Operand → Except InstructionDefect Unit
  | .register index =>
    if 0 ≤ index ∧ index < slotCount then .ok () else .error (.noSuchRegister index)
  | .cell index => if index < 0 then .error (.negativeCell index) else .ok ()
  | .immediate value =>
    if kind = .target then .error (.writesImmediate opcode)
    else if Word.InRange value then .ok () else .error (.wideImmediate value)
  | .label name => .error (.unresolved (.label name))

/-- Every operand fits its kind; the first that does not is reported. -/
def checkOperands (opcode : Opcode) :
    List OperandKind → List Operand → Except InstructionDefect Unit
  | kind :: kinds, operand :: operands =>
    match checkOperand opcode kind operand with
    | .error defect => .error defect
    | .ok () => checkOperands opcode kinds operands
  | _, _ => .ok ()

/-- An instruction has the operands its signature asks for. The sentinel is not looked at. -/
def checkInstruction (ins : Instruction) : Except InstructionDefect Unit :=
  if ins.opcode = .stop then .ok ()
  else if ins.operands.length ≠ ins.opcode.signature.length then
    .error (.arity ins.opcode ins.operands.length)
  else checkOperands ins.opcode ins.opcode.signature ins.operands

/-- Every instruction from `index` on is fit; the first that is not is reported. -/
def checkFrom (index : Nat) : List Instruction → Except Defect Unit
  | [] => .ok ()
  | ins :: rest =>
    match checkInstruction ins with
    | .error defect => .error (.instruction index defect)
    | .ok () => checkFrom (index + 1) rest

/-- What a machine relies on: the start lies in the program and every instruction is fit. Cell
indices are not compared with a block, which the program does not know. -/
def validate (p : Program) : Except Defect Unit :=
  if ¬ (0 ≤ p.start ∧ p.start < p.size) then .error (.badStart p.start p.size)
  else checkFrom 0 p.instructions.toList

/-! ### Listing -/

/-- The labels that stand before the instruction at an index, in table order. -/
def labelsAt (p : Program) (index : Nat) : List String :=
  (p.labels.entries.filter fun (_, i) => i = index).map Prod.fst

/-- The line of an instruction; the one at which the program starts is marked. -/
def listingLine (start : Int) (index : Nat) (ins : Instruction) : String :=
  Text.zeroPadded 10 4 index ++ (if (index : Int) = start then ">" else " ") ++ "     " ++
    (if ins.opcode = .stop then "<end>" else ins.text)

/-- The lines of the instructions from `index` on, each after the labels that stand there. -/
def listingFrom (p : Program) (index : Nat) : List Instruction → List String
  | [] => []
  | ins :: rest =>
    (p.labelsAt index).map (fun name => "      " ++ name ++ ":") ++
      listingLine p.start index ins :: listingFrom p (index + 1) rest

/-- The program as text: indices, labels and instructions. -/
def listing (p : Program) : String :=
  "\n".intercalate (p.listingFrom 0 p.instructions.toList)

end Program

end CellMachine
