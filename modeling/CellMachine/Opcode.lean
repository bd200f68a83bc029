import CellMachine.Text.Column

/-!
# Opcodes

Each instruction has an opcode with a fixed number, a mnemonic, and a signature: the kinds of its
operands in order. A target operand is written, a source operand is read. The opcode `stop` marks
the end of a program; it has no mnemonic that source text could use.
-/

namespace CellMachine

/-- How an instruction uses an operand. -/
inductive OperandKind where
  /-- A register or a memory cell, which is written. -/
  | target
  /-- A register, a memory cell or an immediate, which is read. -/
  | source
  deriving DecidableEq, Repr

inductive Opcode where
  | stop | nop | int | mov | push | pop | pushf | popf | inc | dec | add | sub | mul | div | mod
  | rem | not | xor | or | and | shl | shr | cmp | jmp | call | ret | je | jne | jg | jge | jl
  | jle | prn
  deriving DecidableEq, Repr

namespace Opcode

/-- The opcodes in the order of their numbers. -/
def all : List Opcode :=
  [.stop, .nop, .int, .mov, .push, .pop, .pushf, .popf, .inc, .dec, .add, .sub, .mul, .div, .mod,
   .rem, .not, .xor, .or, .and, .shl, .shr, .cmp, .jmp, .call, .ret, .je, .jne, .jg, .jge, .jl,
   .jle, .prn]

def number : Opcode → Int
  | .stop => -1 | .nop => 0 | .int => 1 | .mov => 2 | .push => 3 | .pop => 4 | .pushf => 5
  | .popf => 6 | .inc => 7 | .dec => 8 | .add => 9 | .sub => 10 | .mul => 11 | .div => 12
  | .mod => 13 | .rem => 14 | .not => 15 | .xor => 16 | .or => 17 | .and => 18 | .shl => 19
  | .shr => 20 | .cmp => 21 | .jmp => 22 | .call => 23 | .ret => 24 | .je => 25 | .jne => 26
  | .jg => 27 | .jge => 28 | .jl => 29 | .jle => 30 | .prn => 31

/-- The opcode with a given number. -/
def ofNumber? (n : Int) : Option Opcode := all.find? fun op => op.number = n

def mnemonic : Opcode → String
  | .stop => "end" | .nop => "nop" | .int => "int" | .mov => "mov" | .push => "push"
  | .pop => "pop" | .pushf => "pushf" | .popf => "popf" | .inc => "inc" | .dec => "dec"
  | .add => "add" | .sub => "sub" | .mul => "mul" | .div => "div" | .mod => "mod"
  | .rem => "rem" | .not => "not" | .xor => "xor" | .or => "or" | .and => "and"
  | .shl => "shl" | .shr => "shr" | .cmp => "cmp" | .jmp => "jmp" | .call => "call"
  | .ret => "ret" | .je => "je" | .jne => "jne" | .jg => "jg" | .jge => "jge" | .jl => "jl"
  | .jle => "jle" | .prn => "prn"

/-- The mnemonic in upper case. -/
def name (op : Opcode) : String := op.mnemonic.toUpper

/-- The opcodes that instructions of a program may have, grouped by what they do. -/
def executable : List Opcode :=
  [.nop, .int, .ret, .prn, .mov, .push, .pop, .pushf, .popf, .inc, .dec, .add, .sub, .mul, .div,
   .mod, .rem, .not, .xor, .or, .and, .shl, .shr, .cmp, .jmp, .call, .je, .jne, .jg, .jge, .jl,
   .jle]

/-- The kinds of the operands, in order. -/
def signature : Opcode → List OperandKind
  | .stop | .nop | .int | .ret | .pushf => []
  | .prn | .push | .jmp | .call | .je | .jne | .jg | .jge | .jl | .jle => [.source]
  | .pop | .popf | .inc | .dec | .rem | .not => [.target]
  | .mov | .add | .sub | .mul | .div | .xor | .or | .and | .shl | .shr => [.target, .source]
  | .mod | .cmp => [.source, .source]

/-- The opcode that a mnemonic names in source text. -/
def ofMnemonic? (text : String) : Option Opcode := executable.find? fun op => op.mnemonic = text

/-- What is reported for a number that no opcode has. -/
def unknownMessage (n : Int) : String := "Unknown opcode " ++ Text.hexLiteral n

end Opcode

end CellMachine
