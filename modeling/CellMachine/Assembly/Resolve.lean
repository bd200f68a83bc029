import CellMachine.Assembly.Line
import CellMachine.Program

/-!
# Labels

Parsing a program takes two passes over its lines. The first gives every label the index of the
next instruction that was parsed; lines that are malformed do not count. The second replaces
label operands by these indices.

A label set twice is reported before anything else. After that the first line at fault counts.
-/

namespace CellMachine.Assembly

/-- A fault and the index of its line. -/
structure ParseError where
  line : Nat
  fault : LineFault
  deriving DecidableEq, Repr

def ParseError.message (e : ParseError) : String :=
  let number := e.line + 1
  s!"Line {number}: " ++ e.fault.kind ++ " " ++ e.fault.detail

/-! ### First pass -/

/-- Give labels an index. The labels before a repeated one are kept. -/
def addLabels (index : Nat) (table : Table Int) : List String → Table Int × Option LineFault
  | [] => (table, none)
  | name :: rest =>
    if table.contains name then (table, some (.duplicateLabel name))
    else addLabels index (table.insert name index) rest

/-- The label table of the lines from number `line` on, the next instruction having index
`index`. -/
def collectFrom (line index : Nat) (table : Table Int) :
    List Line → Table Int × Option ParseError
  | [] => (table, none)
  | l :: rest =>
    match addLabels index table l.labels with
    | (table, some fault) => (table, some ⟨line, fault⟩)
    | (table, none) =>
      collectFrom (line + 1) (if l.hasInstruction then index + 1 else index) table rest

/-- The label table of a program, and the first repeated label. -/
def collectLabels (ls : List Line) : Table Int × Option ParseError :=
  collectFrom 0 0 .empty ls

/-! ### Second pass -/

/-- The operands with the indices of their labels. -/
def resolveOperands (table : Table Int) : List Operand → Except LineFault (List Operand)
  | [] => .ok []
  | .label name :: rest =>
    match table.find? name with
    | none => .error (.undefinedLabel name)
    | some index => (resolveOperands table rest).map (.immediate index :: ·)
  | operand :: rest => (resolveOperands table rest).map (operand :: ·)

def resolveInstruction (table : Table Int) (ins : Instruction) :
    Except LineFault Instruction :=
  (resolveOperands table ins.operands).map fun operands => ⟨ins.opcode, operands⟩

/-- The instructions of the lines from number `line` on. -/
def resolveFrom (table : Table Int) (line : Nat) :
    List Line → Except ParseError (List Instruction)
  | [] => .ok []
  | l :: rest =>
    match l.statement with
    | .none => resolveFrom table (line + 1) rest
    | .malformed fault => .error ⟨line, fault⟩
    | .instruction ins =>
      match resolveInstruction table ins with
      | .error fault => .error ⟨line, fault⟩
      | .ok ins => (resolveFrom table (line + 1) rest).map (ins :: ·)

/-! ### Programs -/

/-- The label at which a program starts. -/
def startLabel : String := "start"

/-- The outcome of parsing, with the label table that was reached. -/
structure Parsed where
  labels : Table Int
  program : Except ParseError Program

/-- The program of token lines. -/
def parse (tokenLines : List (List String)) (defines : Table String) : Parsed :=
  let ls := tokenLines.map Line.ofTokens
  match collectLabels ls with
  | (labels, some e) => ⟨labels, .error e⟩
  | (labels, none) =>
    ⟨labels, (resolveFrom labels 0 ls).map fun body =>
      Program.make body.toArray ((labels.find? startLabel).getD 0) defines labels⟩

end CellMachine.Assembly
