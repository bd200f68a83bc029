import CellMachine.Machine.Basic

/-!
# Executing one instruction

`Machine.execute` carries out the effect of an instruction. It leaves the advance to the next
instruction to the run: a transfer of control sets the instruction pointer one before its target,
and a return to the index of the call, so that the advance lands where it should.
-/

namespace CellMachine.Machine

/-- Replace the first operand by a function of both. -/
def binary (f : Int → Int → Int) (target source : Operand) : Exec Unit := do
  let a ← load target
  let b ← load source
  store target (f a b)

/-- Replace the first operand by a quotient of both. -/
def divide (target source : Operand) : Exec Unit := do
  let a ← load target
  let b ← load source
  match Word.div? a b with
  | some q => store target q
  | none => throw .zeroDivisor

/-- Replace an operand by a function of it. -/
def unary (f : Int → Int) (target : Operand) : Exec Unit := do
  let a ← load target
  store target (f a)

/-- Copy a value; between registers an address stays an address. -/
def move (target source : Operand) : Exec Unit := do
  let v ← loadValue source
  storeValue target v

/-- Keep the remainder of a division. -/
def modulo (dividend divisor : Operand) : Exec Unit := do
  let a ← load dividend
  let b ← load divisor
  match Word.mod? a b with
  | some r => modify fun m => { m with remainder := r }
  | none => throw .zeroModulus

/-- Set the flags by comparing two operands. -/
def compareOperands (first second : Operand) : Exec Unit := do
  let a ← load first
  let b ← load second
  modify fun m => { m with flags := Word.compare a b }

def pushOperand (source : Operand) : Exec Unit := do
  let v ← load source
  push v

def popOperand (target : Operand) : Exec Unit := do
  let v ← pop
  store target v

/-- Set the instruction pointer one before the target. -/
def transfer (target : Operand) : Exec Unit := do
  let t ← load target
  modify (·.setIp (t - 1))

/-- Transfer control if the flags satisfy a condition. -/
def transferIf (condition : Int → Bool) (target : Operand) : Exec Unit := do
  if condition (← get).flags then transfer target

/-- Push the index of the call, then transfer control. -/
def callTarget (target : Operand) : Exec Unit := do
  push (← get).registers.ip
  transfer target

/-- Go back to the index that was pushed last. -/
def returnToCaller : Exec Unit := do
  let index ← pop
  modify (·.setIp index)

/-- Print a number, if it has few enough digits to be written. -/
def print (source : Operand) : Exec Unit := do
  let v ← load source
  if Text.isWritable v then modify fun m => { m with printed := m.printed.push v }
  else throw .unwritable

/-- Use the only operand. Surplus operands count as a missing one here, while a program with them
would be executed as if they were not there; validation excludes both. -/
def withOne (operands : List Operand) (action : Operand → Exec Unit) : Exec Unit :=
  match operands with
  | [a] => action a
  | _ => throw .missingOperand

/-- Use the two operands. Surplus operands are as for `withOne`. -/
def withTwo (operands : List Operand) (action : Operand → Operand → Exec Unit) : Exec Unit :=
  match operands with
  | [a, b] => action a b
  | _ => throw .missingOperand

/-- The condition on the flags under which a conditional jump is taken. -/
def jumpCondition : Opcode → Option (Int → Bool)
  | .je => some fun f => Word.equalFlag f
  | .jne => some fun f => !Word.equalFlag f
  | .jg => some fun f => Word.greaterFlag f
  | .jge => some fun f => Word.equalFlag f || Word.greaterFlag f
  | .jl => some fun f => !(Word.equalFlag f || Word.greaterFlag f)
  | .jle => some fun f => !Word.greaterFlag f
  | _ => none

/-- The effect of an instruction. The sentinel has none; a run never gets to execute it. -/
def execute (opcode : Opcode) (operands : List Operand) : Exec Unit :=
  match opcode with
  | .stop | .nop | .int => pure ()
  | .mov => withTwo operands move
  | .push => withOne operands pushOperand
  | .pop | .popf => withOne operands popOperand
  | .pushf => do push (← get).flags
  | .inc => withOne operands (unary fun a => Word.add a 1)
  | .dec => withOne operands (unary fun a => Word.sub a 1)
  | .add => withTwo operands (binary Word.add)
  | .sub => withTwo operands (binary Word.sub)
  | .mul => withTwo operands (binary Word.mul)
  | .div => withTwo operands divide
  | .mod => withTwo operands modulo
  | .rem => withOne operands fun target => do store target (← get).remainder
  | .not => withOne operands (unary Word.bitNot)
  | .xor => withTwo operands (binary Word.bitXor)
  | .or => withTwo operands (binary Word.bitOr)
  | .and => withTwo operands (binary Word.bitAnd)
  | .shl => withTwo operands (binary Word.shl)
  | .shr => withTwo operands (binary Word.shr)
  | .cmp => withTwo operands compareOperands
  | .jmp => withOne operands transfer
  | .call => withOne operands callTarget
  | .ret => returnToCaller
  | .je | .jne | .jg | .jge | .jl | .jle =>
    withOne operands fun target =>
      match jumpCondition opcode with
      | some condition => transferIf condition target
      | none => pure ()
  | .prn => withOne operands print

end CellMachine.Machine
