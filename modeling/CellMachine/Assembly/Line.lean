import CellMachine.Assembly.Value
import CellMachine.Instruction

/-!
# Assembly lines

A line is any number of labels, each a name and a colon, and then at most one instruction: a
mnemonic and one token for each operand of its signature.

An operand is a register name, a cell as a literal in square brackets, a literal, or the name of a
label. A target is one of the first two.
-/

namespace CellMachine.Assembly

/-- What is wrong with a line. -/
inductive LineFault where
  | duplicateLabel (name : String)
  | undefinedLabel (name : String)
  | invalidInstruction (token : String)
  /-- The position of the operand counts from one. -/
  | missingOperand (position : Nat)
  | invalidOperand (token : String)
  | extraToken (token : String)
  deriving DecidableEq, Repr

namespace LineFault

/-- The kind of fault in words. -/
def kind : LineFault → String
  | .duplicateLabel _ => "duplicate label"
  | .undefinedLabel _ => "undefined label"
  | .invalidInstruction _ => "invalid instruction"
  | .missingOperand _ => "missing operand"
  | .invalidOperand _ => "invalid operand"
  | .extraToken _ => "extra token"

/-- The token or position at fault, as it is shown. -/
def detail : LineFault → String
  | .missingOperand position => toString position
  | .duplicateLabel token | .undefinedLabel token | .invalidInstruction token
  | .invalidOperand token | .extraToken token => "'" ++ token ++ "'"

end LineFault

/-- A character may begin the name of a label. -/
def isLabelStart (c : Char) : Bool :=
  c == '$' || c == '@' || c == '_' || ('A' ≤ c && c ≤ 'Z') || ('a' ≤ c && c ≤ 'z')

/-- A character may stand in the name of a label. -/
def isLabelChar (c : Char) : Bool := isLabelStart c || ('0' ≤ c && c ≤ '9')

/-- A text is the name of a label. -/
def isLabelName (name : String) : Bool :=
  match name.toList with
  | [] => false
  | c :: rest => isLabelStart c && rest.all isLabelChar

/-- The name of the label that a token sets. -/
def labelOf? (token : String) : Option String :=
  match token.toList.reverse with
  | ':' :: name =>
    let name := String.ofList name.reverse
    if isLabelName name then some name else none
  | _ => none

/-- The text between the square brackets of a token. -/
def bracketed? (token : String) : Option String :=
  match token.toList with
  | '[' :: rest =>
    match rest.reverse with
    | ']' :: inner => some (String.ofList inner.reverse)
    | _ => none
  | _ => none

/-- The cell that a text between square brackets names. -/
def cellOf? (inner : String) : Option Operand :=
  match readValue (Text.trim inner) with
  | .ok index => if index < 0 then none else some (.cell index)
  | .error _ => none

/-- The operand that a token stands for. -/
def operandOf? (token : String) : Option Operand :=
  match Slot.ofName? token with
  | some slot => some (.register slot.val)
  | none =>
    match bracketed? token with
    | some inner => cellOf? inner
    | none =>
      match readValue token with
      | .ok v => some (.immediate v)
      | .error _ => if isLabelName token then some (.label token) else none

/-- The operand that a token stands for, if the instruction may use it in that way. -/
def operandFor? (kind : OperandKind) (token : String) : Option Operand :=
  match kind with
  | .source => operandOf? token
  | .target => (operandOf? token).filter Operand.isWritable

/-- One operand for each kind, and the tokens left over. The first kind has the given position. -/
def parseOperands (position : Nat) :
    List OperandKind → List String → Except LineFault (List Operand × List String)
  | [], rest => .ok ([], rest)
  | _ :: _, [] => .error (.missingOperand position)
  | kind :: kinds, token :: rest =>
    match operandFor? kind token with
    | none => .error (.invalidOperand token)
    | some operand =>
      match parseOperands (position + 1) kinds rest with
      | .error fault => .error fault
      | .ok (operands, rest) => .ok (operand :: operands, rest)

/-- The instruction of a mnemonic and the tokens after it. -/
def parseInstruction (mnemonic : String) (tokens : List String) :
    Except LineFault Instruction :=
  match Opcode.ofMnemonic? mnemonic with
  | none => .error (.invalidInstruction mnemonic)
  | some opcode =>
    match parseOperands 1 opcode.signature tokens with
    | .error fault => .error fault
    | .ok (_, extra :: _) => .error (.extraToken extra)
    | .ok (operands, []) => .ok ⟨opcode, operands⟩

/-- What follows the labels of a line. -/
inductive Statement where
  | none
  | instruction (ins : Instruction)
  | malformed (fault : LineFault)
  deriving DecidableEq, Repr

structure Line where
  labels : List String := []
  statement : Statement := .none
  deriving DecidableEq, Repr

namespace Line

/-- The line of a list of tokens. -/
def ofTokens : List String → Line
  | [] => {}
  | token :: rest =>
    match labelOf? token with
    | some name =>
      let line := ofTokens rest
      { line with labels := name :: line.labels }
    | none =>
      match parseInstruction token rest with
      | .ok ins => ⟨[], .instruction ins⟩
      | .error fault => ⟨[], .malformed fault⟩

/-- The line holds an instruction that was parsed. -/
def hasInstruction (line : Line) : Bool :=
  match line.statement with
  | .instruction _ => true
  | _ => false

end Line

end CellMachine.Assembly
