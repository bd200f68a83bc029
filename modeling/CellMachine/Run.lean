import CellMachine.Log
import CellMachine.Machine.Execute
import CellMachine.Program

/-!
# Runs

A run sets the instruction pointer to the start of a program and then executes instructions until
it reaches the sentinel or meets a fault. Nothing else stops it.

* `Session.step` executes the instruction that the instruction pointer refers to;
* `Run.advance` is one round of the run: it looks at the instruction, executes it and moves the
  instruction pointer to the next one;
* `Run.after` is the run after a number of rounds. A run that has stopped stays as it is, so a
  larger number of rounds changes nothing once it has.

While tracing is on, every instruction is recorded before it is executed, together with the
registers. Only the last `traceLimit` lines are kept; each is also written to the log. A line that
cannot be written, because of a number with too many digits, is a fault, and the instruction is then
not executed.
-/

namespace CellMachine

/-- The instruction at an index, or the fault of leaving the program. -/
def Program.fetch (p : Program) (index : Int) : Except Fault Instruction :=
  match p.instruction? index with
  | some ins => .ok ins
  | none => .error (.outsideProgram index p.size)

/-! ### Monitoring -/

/-- What a host watches: the trace and the log. -/
structure Monitor where
  tracing : Bool := false
  /-- Lines of the trace, the oldest first; there may be more than are to be kept. -/
  trace : Array String := #[]
  log : Array Log.Record := #[]
  deriving DecidableEq, Repr

namespace Monitor

/-- The number of lines that the trace keeps. -/
def traceLimit : Nat := 10000

/-- Add a line. Lines that are too old are dropped once there are as many of them as of those that
are kept. -/
def keep (trace : Array String) (line : String) : Array String :=
  if trace.size < 2 * traceLimit then trace.push line
  else (trace.extract traceLimit trace.size).push line

/-- The lines of the trace that are kept, the oldest first. -/
def recent (w : Monitor) : Array String :=
  w.trace.extract (w.trace.size - traceLimit) w.trace.size

/-- The line for an instruction about to be executed. -/
def traceLine (index : Int) (ins : Instruction) (registers : RegisterFile) : String :=
  Text.zeroPadded 10 4 index ++ ": " ++ Text.padRight 24 ins.text ++ " | " ++ registers.display

/-- The numbers that the line for an instruction holds. -/
def lineNumbers (index : Int) (ins : Instruction) (registers : RegisterFile) : List Int :=
  index :: ins.operands.flatMap Operand.numbers ++
    (List.finRange slotCount).map fun s => (registers.get s).toInt

/-- Whether tracing is on and the line for an instruction cannot be written. -/
def balks (w : Monitor) (index : Int) (ins : Instruction) (registers : RegisterFile) : Bool :=
  w.tracing && !(lineNumbers index ins registers).all Text.isWritable

/-- What is logged for a line of the trace. -/
def traceRecord (line : String) : Log.Record :=
  ⟨Log.Level.debug, Log.machineLogger, "_record_trace:330", line⟩

/-- Record an instruction about to be executed, if tracing is on. -/
def observe (w : Monitor) (index : Int) (ins : Instruction) (registers : RegisterFile) :
    Monitor :=
  match w with
  | ⟨tracing, trace, log⟩ =>
    if tracing then
      let line := traceLine index ins registers
      ⟨tracing, keep trace line, log.push (traceRecord line)⟩
    else ⟨tracing, trace, log⟩

def setTracing (w : Monitor) (on : Bool) : Monitor := { w with tracing := on }

def clearTrace (w : Monitor) : Monitor := { w with trace := #[] }

def traceText (w : Monitor) : String := "\n".intercalate w.recent.toList

end Monitor

/-! ### One step -/

/-- A machine under a monitor. -/
structure Session where
  machine : Machine
  monitor : Monitor

namespace Session

/-- Execute the instruction that the instruction pointer refers to. The sentinel cannot be
executed, and neither can an instruction whose line is to be recorded and cannot be written. -/
def step (p : Program) : Session → EStateM.Result Fault Session Unit
  | ⟨m, w⟩ =>
    let index := m.registers.ip
    match p.fetch index with
    | .error fault => .error fault ⟨m, w⟩
    | .ok ins =>
      if ins.opcode = .stop then .error (.atEnd index) ⟨m, w⟩
      else if w.balks index ins m.registers then .error .unwritable ⟨m, w⟩
      else
        let w := w.observe index ins m.registers
        match Machine.execute ins.opcode ins.operands m with
        | .ok () m => .ok () ⟨m, w⟩
        | .error fault m => .error fault ⟨m, w⟩

/-- Move the instruction pointer to the next instruction. -/
def next : Session → Session
  | ⟨m, w⟩ => ⟨m.setIp (m.registers.ip + 1), w⟩

end Session

/-! ### The run -/

/-- Whether a run goes on, and how it ended. -/
inductive Status where
  | running
  | finished
  | faulted (fault : Fault)
  deriving DecidableEq, Repr

structure Run where
  session : Session
  /-- The number of instructions executed without a fault. -/
  steps : Nat
  status : Status

namespace Run

/-- The run of a program before its first round. -/
def start (p : Program) : Session → Run
  | ⟨m, w⟩ => ⟨⟨m.setIp p.start, w⟩, 0, .running⟩

/-- One round of the run. -/
def advance (p : Program) : Run → Run
  | ⟨s, steps, .running⟩ =>
    match p.fetch s.machine.registers.ip with
    | .error fault => ⟨s, steps, .faulted fault⟩
    | .ok ins =>
      if ins.opcode = .stop then ⟨s, steps, .finished⟩
      else match s.step p with
        | .ok () s => ⟨s.next, steps + 1, .running⟩
        | .error fault s => ⟨s, steps, .faulted fault⟩
  | r => r

/-- The run after a number of rounds. -/
def after (p : Program) : Nat → Run → Run
  | 0, r => r
  | n + 1, r =>
    match r with
    | ⟨s, steps, .running⟩ => after p n (advance p ⟨s, steps, .running⟩)
    | r => r

end Run

end CellMachine
