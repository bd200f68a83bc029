import CellMachine.CommandLine.Help
import CellMachine.CommandLine.Options
import CellMachine.Context
import CellMachine.Log.Sinks

/-!
# The command

`CommandLine.execute` does what a command line asks for: it runs a program, or shows its tokens or
its listing. The exit status is 0 if the program ran to its end, 1 if it could not be set up, and
2 for a fault while it ran and for a command line that is not understood. A failure that is none
of these has no status: it escapes.

The files are given as a tree, and what is written to the output, the error output and the log is
returned. A log file is part of the tree, so that a program may include it.
-/

namespace CellMachine.CommandLine

/-- What ends a command without an exit status. -/
inductive Escape where
  | failed (cause : Failure)
  /-- The log file cannot be opened, or a directory for it cannot be made. -/
  | noLogFile (cause : Files.Tree.Unmade)
  /-- The profile was left without a name. -/
  | noProfile
  /-- A size has too many digits to be told. -/
  | unshownSize
  deriving DecidableEq, Repr

def Escape.message : Escape → String
  | .failed cause => cause.message
  | .noLogFile cause => cause.message
  | .noProfile => "unhashable type: 'list'"
  | .unshownSize => Text.tooLongToShow

/-- What a command has done. -/
structure Outcome where
  status : Except Escape Nat
  out : String := ""
  err : String := ""
  log : Array Log.Record := #[]

/-- What a command has done, and the log and the files that it leaves. -/
structure Result where
  outcome : Outcome
  sinks : Log.Sinks

/-- How long a command may take: rounds of expansion and rounds of a run. -/
structure Budget where
  expansion : Nat
  execution : Nat

/-! ### Showing a program -/

/-- The text that the options `--tokens` and `--listing` ask for, with what was logged. -/
def shownText (files : Files.Live) (budget : Budget) (source : Files.Source) (tokens : Bool)
    (log : Array Log.Record) : Except Assembly.AssemblyFault String × Array Log.Record :=
  let base := some source.path.parent
  if tokens then
    let e := (Assembly.Expansion.start source.text .empty log).after files base budget.expansion
    match e.status with
    | .expanding => (.error .unfinished, e.log)
    | .failed fault => (.error (.directive fault), e.log)
    | .finished =>
      (.ok (Assembly.dumpTokens (Assembly.tokenize e.defines (String.ofList e.text))), e.log)
  else
    let (result, log) := Assembly.assemble files base budget.expansion source.text .empty log
    (result.map Program.listing, log)

/-- Show the tokens or the listing of a program. -/
def showProgram (files : Files.Live) (budget : Budget) (input : String) (tokens : Bool) :
    Outcome :=
  match Files.readSource files input Files.sourceExtension Files.openAttempts #[] with
  | (.error .nulCharacter, log) => { status := .error (.failed (.source .nulCharacter)), log }
  | (.error fault, log) => { status := .ok 1, err := "Error: " ++ fault.message ++ "\n", log }
  | (.ok source, log) =>
    match shownText files budget source tokens log with
    | (.ok text, log) => { status := .ok 0, out := text ++ "\n", log }
    | (.error fault, log) =>
      if (Failure.assembly fault).isReported then
        { status := .ok 1, err := "Error: " ++ input ++ ": " ++ fault.message ++ "\n", log }
      else { status := .error (.failed (.assembly fault)), log }

/-! ### Running a program -/

/-- A size option; an empty text counts as no option. -/
def sizeOf? (text : Option String) : Except Text.IntegerFault (Option Int) :=
  match text with
  | none => .ok none
  | some text => if text.isEmpty then .ok none else (readSize text).map some

/-- Why a program is not set up. -/
inductive SetupFault where
  /-- What is wrong with the sizes. -/
  | sizes (message : String)
  | noProfile

/-- The profile that the options ask for, and its name. The sizes are looked at before the name. -/
def profileOf (o : Options) : Except SetupFault (String × Profile) :=
  match sizeOf? o.memorySize with
  | .error fault => .error (.sizes fault.message)
  | .ok memorySize =>
    match sizeOf? o.stackSize with
    | .error fault => .error (.sizes fault.message)
    | .ok stackSize =>
      match o.profile with
      | none => .error .noProfile
      | some name =>
        match Profile.resolve name memorySize stackSize (if o.checked then some true else none) with
        | .error fault => .error (.sizes fault.message)
        | .ok profile => .ok (name, profile)

/-- What `--verbose` tells first: the input and the profile. -/
def inputLines (input name : String) (profile : Profile) : String :=
  "[tvmi] Input:   " ++ input ++ "\n" ++
    "[tvmi] Profile: " ++ name ++ ": " ++ profile.description ++ "\n"

/-- What `--verbose` tells next: the sizes. -/
def memoryLine? (layout : Layout) : Option String := do
  let memory ← Text.integerText? layout.memorySize
  let stack ← Text.integerText? layout.stackSize
  return s!"[tvmi] Memory:  {memory} bytes, stack {stack} bytes" ++
    (if layout.checked then ", checked" else "") ++ "\n"

/-- What `--dump-regs` tells after the run. -/
def registerDump (m : Machine) : String :=
  m.registers.display ++ "\n" ++
    "FLAGS=" ++ Text.hexLiteral m.flags ++
    s!" REM={m.remainder} stack depth={m.stackDepth}\n"

/-- What is told after the run, however it ended. -/
def epilogue (o : Options) (c : Context) : String :=
  (if o.trace then c.monitor.traceText ++ "\n" else "") ++
    (match c.machine with
      | some m => if o.dumpRegs then registerDump m else ""
      | none => "")

/-- What the machine of a context has printed. -/
def outputOf (c : Context) : String :=
  match c.machine with
  | some m => m.output
  | none => ""

/-- Run the loaded program. -/
def runLoaded (budget : Budget) (o : Options) (told : String) (c : Context) : Outcome :=
  let c := { c with monitor := c.monitor.setTracing o.trace }
  match Context.run budget.execution c with
  | .ok steps c =>
    { status := .ok 0, out := outputOf c
      err := told ++ epilogue o c ++
        (if o.verbose then s!"[tvmi] Executed {steps} instructions\n" else "")
      log := c.destroy.monitor.log }
  | .error (.machine fault) c =>
    if fault.isCaught then
      { status := .ok 2, out := outputOf c
        err := told ++ "Runtime error: " ++ fault.message ++ "\n" ++ epilogue o c
        log := c.destroy.monitor.log }
    else
      { status := .error (.failed (.machine fault)), out := outputOf c
        err := told ++ epilogue o c, log := c.destroy.monitor.log }
  | .error failure c =>
    { status := .error (.failed failure), out := outputOf c, err := told ++ epilogue o c
      log := c.destroy.monitor.log }

/-- Load a program into a context and run it. -/
def runInput (files : Files.Live) (budget : Budget) (input : String) (o : Options) (told : String)
    (c : Context) : Outcome :=
  match Context.interpret files budget.expansion input c with
  | .error failure c =>
    { status := .error (.failed failure), err := told, log := c.destroy.monitor.log }
  | .ok status c =>
    if status = Context.loaded then runLoaded budget o told c
    else { status := .ok 1, err := told, log := c.destroy.monitor.log }

/-- Set a machine up and run a program on it, after something was told. -/
def runOn (files : Files.Live) (budget : Budget) (input : String) (o : Options) (layout : Layout)
    (told : String) : Outcome :=
  match Context.create layout with
  | .error (.allocation .outOfMemory, log) =>
    { status := .ok 1, err := told ++ "Error: unable to allocate the VM context\n", log }
  | .error (failure, log) => { status := .error (.failed failure), err := told, log }
  | .ok c => runInput files budget input o told c

/-- Run a program on a machine as the options ask for it. -/
def runProgram (files : Files.Live) (budget : Budget) (input : String) (o : Options) : Outcome :=
  match profileOf o with
  | .error (.sizes message) => { status := .ok 1, err := "Error: " ++ message ++ "\n" }
  | .error .noProfile => { status := .error .noProfile }
  | .ok (name, profile) =>
    if o.verbose then
      match memoryLine? profile.layout with
      | some line =>
        runOn files budget input o profile.layout (inputLines input name profile ++ line)
      | none => { status := .error .unshownSize, err := inputLines input name profile }
    else runOn files budget input o profile.layout ""

/-! ### Commands -/

/-- The settings of the log that the options ask for. -/
def logSettings (o : Options) : Log.Settings :=
  { consoleLevel := if o.verbose then Log.Level.info else Log.Level.warning
    logFile := o.logFile }

/-- Do what a request asks for, with the given sinks before it. -/
def perform (sinks : Log.Sinks) (budget : Budget) : Request → Result
  | .showHelp => { outcome := { status := .ok 0, out := helpText }, sinks }
  | .showVersion => { outcome := { status := .ok 0, out := versionText ++ "\n" }, sinks }
  | .runProgram input o =>
    match sinks.configure (logSettings o) with
    | .error unmade => { outcome := { status := .error (.noLogFile unmade) }, sinks }
    | .ok sinks =>
      let outcome :=
        if o.tokens || o.listing then showProgram sinks.files budget input o.tokens
        else runProgram sinks.files budget input o
      { outcome, sinks := sinks.emitAll outcome.log }

/-- Do what the words of a command line ask for. -/
def execute (sinks : Log.Sinks) (budget : Budget) (words : List String) : Result :=
  match readArguments words with
  | .error fault =>
    { outcome := { status := .ok 2, err := usageText ++ "tvmi: error: " ++ fault.message ++ "\n" }
      sinks }
  | .ok request => perform sinks budget request

end CellMachine.CommandLine
