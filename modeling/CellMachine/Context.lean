import CellMachine.Assembly.Basic
import CellMachine.Files.Source
import CellMachine.Layout
import CellMachine.Run

/-!
# Contexts

A context owns a machine, the program loaded into it, and a monitor. It is created from a layout
and destroyed at the end; after that it has no machine and no program, though a program can still
be loaded.

Operations are actions of `Host`: they end in a result or a `Failure`, and the context is known
after either.
-/

namespace CellMachine

structure Context where
  machine : Option Machine
  program : Option Program
  monitor : Monitor := {}

/-- The reasons for which an operation of a host fails. -/
inductive Failure where
  | layout (fault : LayoutFault)
  | allocation (fault : Machine.AllocationFault)
  | machine (fault : Fault)
  | defect (d : Program.Defect)
  | assembly (fault : Assembly.AssemblyFault)
  | source (fault : Files.SourceFault)
  /-- The rounds that a run was given did not suffice. -/
  | unfinished
  deriving DecidableEq, Repr

namespace Failure

def message : Failure → String
  | .layout fault => fault.message
  | .allocation fault => fault.message
  | .machine fault => fault.message
  | .defect d => d.message
  | .assembly fault => fault.message
  | .source fault => fault.message
  | .unfinished => "the run did not finish"

/-- The failure is one of the source text or the program, which a host reports. -/
def isReported : Failure → Bool
  | .defect _ => true
  | .assembly (.directive fault) => fault.isReported
  | .assembly (.parse _) => true
  | _ => false

end Failure

/-- An action on a context, which ends in a result or a failure. -/
abbrev Host := EStateM Failure Context

namespace Context

/-! ### Life cycle -/

/-- What is logged when a context is destroyed. -/
def destroyedRecord : Log.Record :=
  ⟨Log.Level.debug, Log.machineLogger, "destroy:344", "VM context destroyed"⟩

def boolText (b : Bool) : String := if b then "True" else "False"

def createdRecord (layout : Layout) : Log.Record :=
  ⟨Log.Level.debug, Log.machineLogger, "__init__:94",
    s!"VM context created: memory={layout.memorySize} stack={layout.stackSize} checked=" ++
      boolText layout.checked⟩

def allocationRecord (layout : Layout) : Log.Record :=
  ⟨Log.Level.error, Log.machineLogger, "__init__:81",
    s!"Unable to allocate VM context ({layout.memorySize} bytes of memory)"⟩

/-- A context with a fresh machine and the empty program, or the failure with what was logged. -/
def create (layout : Layout) : Except (Failure × Array Log.Record) Context :=
  match Layout.validateSizes layout.memorySize layout.stackSize with
  | .error fault => .error (.layout fault, #[])
  | .ok () =>
    match Machine.create layout.memorySize layout.checked with
    | .error .outOfMemory =>
      .error (.allocation .outOfMemory, #[allocationRecord layout, destroyedRecord])
    | .error fault => .error (.allocation fault, #[])
    | .ok m =>
      .ok
        { machine := some (m.createStack layout.stackSize)
          program := some .empty
          monitor := { log := #[createdRecord layout] } }

/-- Write a record. -/
def log (c : Context) (r : Log.Record) : Context :=
  { c with monitor := { c.monitor with log := c.monitor.log.push r } }

def releasedRecord (m : Machine) : Log.Record :=
  ⟨Log.Level.debug, Log.blockLogger, "destroy:146", s!"memory block of {m.size} bytes released"⟩

/-- Give up the program and the machine. -/
def destroy (c : Context) : Context :=
  let c := match c.machine with
    | some m => { c with machine := none }.log (releasedRecord m)
    | none => c
  { c with program := none }.log destroyedRecord

/-- The same context with all that was logged so far. -/
def withLog (c : Context) (log : Array Log.Record) : Context :=
  { c with monitor := { c.monitor with log } }

/-! ### Loading -/

def loadedRecord (p : Program) : Log.Record :=
  let count := p.size - 1
  ⟨Log.Level.debug, Log.machineLogger, "load_program:116",
    s!"program loaded: {count} instructions, start={p.start}"⟩

/-- Validate a program and install it. -/
def load (p : Program) : Host Unit :=
  match p.validate with
  | .error defect => throw (.defect defect)
  | .ok () =>
    modify fun c =>
      { c with program := some (.make p.instructions p.start p.defines p.labels) }.log
        (loadedRecord p)

/-- Assemble a source text and load the program. -/
def loadSource (files : Files.Live) (rounds : Nat) (source : String)
    (base : Option Files.Path) : Host Unit := fun c =>
  match Assembly.assemble files base rounds source .empty c.monitor.log with
  | (.error fault, log) => .error (.assembly fault) (c.withLog log)
  | (.ok p, log) => load p (c.withLog log)

/-- The status that stands for a failure to load. -/
def loadFailed : Nat := 1

/-- The status that stands for success. -/
def loaded : Nat := 0

/-- What is logged for a source that is not read. -/
def unreadRecord (fault : Files.SourceFault) : Log.Record :=
  ⟨Log.Level.error, Log.machineLogger, "interpret:136", fault.message⟩

/-- What is logged for a source that is not loaded. -/
def unloadedRecord (filename : String) (failure : Failure) : Log.Record :=
  ⟨Log.Level.error, Log.machineLogger, "interpret:142", filename ++ ": " ++ failure.message⟩

/-- Load the program of a source file. A source that is not read, not assembled or not valid is
logged and gives the status `loadFailed`. -/
def interpret (files : Files.Live) (rounds : Nat) (filename : String) : Host Nat := fun c =>
  match Files.readSource files filename Files.sourceExtension Files.openAttempts c.monitor.log with
  | (.error .nulCharacter, log) => .error (.source .nulCharacter) (c.withLog log)
  | (.error fault, log) => .ok loadFailed ((c.withLog log).log (unreadRecord fault))
  | (.ok source, log) =>
    match loadSource files rounds source.text (some source.path.parent) (c.withLog log) with
    | .ok () c => .ok loaded c
    | .error failure c =>
      if failure.isReported then .ok loadFailed (c.log (unloadedRecord filename failure))
      else .error failure c

/-! ### Execution -/

/-- Act on the machine; a destroyed context has none. -/
def onMachine (action : Exec α) : Host α
  | ⟨some m, p, w⟩ =>
    match action m with
    | .ok a m => .ok a ⟨some m, p, w⟩
    | .error fault m => .error (.machine fault) ⟨some m, p, w⟩
  | c => .error (.machine .destroyed) c

/-- Execute the instruction that the instruction pointer refers to. -/
def step : Host Unit
  | ⟨some m, some p, w⟩ =>
    match Session.step p ⟨m, w⟩ with
    | .ok () ⟨m, w⟩ => .ok () ⟨some m, some p, w⟩
    | .error fault ⟨m, w⟩ => .error (.machine fault) ⟨some m, some p, w⟩
  | c => .error (.machine .destroyed) c

/-- Run the program to its end, in at most the given number of rounds. The result is the number
of instructions executed. -/
def run (rounds : Nat) : Host Nat
  | ⟨some m, some p, w⟩ =>
    match Run.after p rounds (Run.start p ⟨m, w⟩) with
    | ⟨⟨m, w⟩, steps, .finished⟩ => .ok steps ⟨some m, some p, w⟩
    | ⟨⟨m, w⟩, _, .faulted fault⟩ => .error (.machine fault) ⟨some m, some p, w⟩
    | ⟨⟨m, w⟩, _, .running⟩ => .error .unfinished ⟨some m, some p, w⟩
  | c => .error (.machine .destroyed) c

end Context

end CellMachine
