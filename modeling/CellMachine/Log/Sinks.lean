import CellMachine.Files.Tree
import CellMachine.Log

/-!
# Where records go

A host sets up the loggers of the library: how severe a record must be to count at all, how severe
to be shown on the console, and a file that takes every record that counts. Setting up again
replaces what was set up before, but a file keeps what was written to it.

The log file is a file like any other: `Sinks.files` are the files as they stand after some more
records, with the lines of the log at the end of the log file.

Records of loggers outside the library are not looked at.
-/

namespace CellMachine.Log

structure Settings where
  level : Level := Level.debug
  consoleLevel : Level := Level.warning
  logFile : Option String := none
  /-- The console shows plain lines, rather than a decorated display. -/
  plainConsole : Bool := false
  deriving DecidableEq, Repr

namespace Settings

/-- The path of the log file; an empty name stands for none. -/
def path? (s : Settings) : Option Files.Path :=
  match s.logFile with
  | some name => if name.isEmpty then none else some (Files.Path.ofText name)
  | none => none

/-- The number of places that take records. -/
def handlerCount (s : Settings) : Nat := if s.path?.isSome then 2 else 1

/-- The severity from which on records count. The severity 0 leaves it to the surroundings, which
ask for warnings. -/
def effectiveLevel (s : Settings) : Level := if s.level = 0 then Level.warning else s.level

end Settings

/-- The settings in force, and what was written so far. -/
structure Sinks where
  tree : Files.Tree := {}
  /-- The time that the lines of a log file tell. -/
  time : String
  settings : Option Settings := none
  /-- The place of the log file in force. -/
  place : Option Files.Place := none
  /-- The records shown on a plain console. -/
  console : Array Record := #[]
  /-- The records written to log files, each with the place of its file. -/
  written : Array (Files.Place × Record) := #[]

namespace Sinks

/-- A logger takes its settings from the root logger. -/
def isOwn (logger : String) : Bool :=
  logger = rootLogger || (rootLogger ++ ".").toList.isPrefixOf logger.toList

/-- Show a record on a plain console, if it is severe enough. -/
def display (s : Sinks) (settings : Settings) (r : Record) : Sinks :=
  if settings.plainConsole ∧ settings.consoleLevel ≤ r.level then
    { s with console := s.console.push r }
  else s

/-- Write a record to the log file, if there is one. -/
def append (s : Sinks) (r : Record) : Sinks :=
  match s.place with
  | some place => if Level.debug ≤ r.level then { s with written := s.written.push (place, r) } else s
  | none => s

/-- Write a record to where the settings send it. A record without severity goes nowhere. -/
def emit (s : Sinks) (r : Record) : Sinks :=
  match s.settings with
  | none => s
  | some settings =>
    if isOwn r.logger ∧ 0 < r.level ∧ settings.effectiveLevel ≤ r.level then
      (s.display settings r).append r
    else s

def emitAll (s : Sinks) (records : Array Record) : Sinks := records.foldl emit s

/-! ### Log files -/

/-- The lines that were written to the file at a place. -/
def linesAt (s : Sinks) (place : Files.Place) : String :=
  String.join ((s.written.toList.filter fun (p, _) => p = place).map fun (_, r) => r.line s.time)

/-- The files as they stand after some more records. -/
def files (s : Sinks) : Files.Live := fun records path =>
  match s.tree.find path with
  | .ok (.file place bytes) =>
    let s := if s.place = some place then s.emitAll records else s
    .ok (bytes ++ (s.linesAt place).toUTF8.toList)
  | .ok (.directory _) => .error .isDirectory
  | .error fault => .error fault

/-- What a log file is told first: its own path. -/
def openedRecord (path : Files.Path) : Record :=
  ⟨Level.debug, rootLogger, "setup_logging:70", "Log file: " ++ path.text⟩

/-- Put settings in force. The directories of a log file are made, and the file is opened at
once. -/
def configure (s : Sinks) (settings : Settings) : Except Files.Tree.Unmade Sinks :=
  match settings.path? with
  | none => .ok { s with settings := some settings, place := none }
  | some path =>
    match s.tree.makeDirectories path.parent with
    | .error unmade => .error unmade
    | .ok tree =>
      match tree.openForAppend path with
      | .error fault => .error ⟨path, .unreachable fault⟩
      | .ok (tree, place) =>
        .ok ({ s with tree, settings := some settings, place := some place }.emit
          (openedRecord path))

end Sinks

end CellMachine.Log
