import CellMachine.CommandLine.Command
import Std.Time

/-!
# The program

The outer layer of the command: it reads the part of the file system that a command line needs
into a tree, has the command carried out, and writes what came of it. Nothing is decided here. The
rounds of an expansion are followed only to learn which files it asks for.
-/

namespace CellMachine.Shell

open Assembly CommandLine Files

/-- What opening a path gives. -/
def openPath (path : Path) : IO (Except OpenFault (List UInt8)) := do
  if path.text.toList.contains (Char.ofNat 0) then return .error .nulCharacter
  try
    return .ok (← IO.FS.readBinFile path.text).toList
  catch
    | .inappropriateType _ code _ =>
      return .error (if code = 20 then .notDirectory else .isDirectory)
    | .invalidArgument _ _ _ => return .error .nameTooLong
    | _ => return .error .notFound

/-- Learn what is at the places that names lead to. A place that leads nowhere may lead somewhere
once directories were made, so the names after it are asked for too. -/
def learnFrom (t : Tree) (place : Place) : List String → IO Tree
  | [] => return t
  | ".." :: rest => learnFrom t place.up rest
  | name :: rest => do
    let place := place.enter name
    if (t.contents.lookup place).isSome then return t
    match ← openPath place.path with
    | .ok bytes => return { t with contents := (place, bytes) :: t.contents }
    | .error .isDirectory => learnFrom { t with directories := place :: t.directories } place rest
    | .error _ => learnFrom t place rest

/-- Learn what paths lead to. -/
def learn (t : Tree) (paths : List Path) : IO Tree :=
  paths.foldlM (fun t path => learnFrom t (Tree.startOf path) path.parts) t

/-- The paths that the next `%include` of a text may lead to. -/
def includePaths (base : Path) (text : List Char) : List Path :=
  match firstOccurrence? includeMark text with
  | none => []
  | some o => [Path.ofText o.argument, base.under (Path.ofText o.argument)]

/-- Learn the files that an expansion asks for. -/
partial def followExpansion (base : Path) (t : Tree) (e : Expansion) : IO Tree := do
  match e.status with
  | .expanding =>
    let t ← learn t (includePaths base e.text)
    followExpansion base t (e.advance t.files.still (some base))
  | _ => return t

/-- Learn the files that the program of a given name asks for. -/
def followInput (t : Tree) (input : String) : IO Tree := do
  let t ← learn t [Path.ofText input, Path.ofText (input ++ sourceExtension)]
  match t.files.lookUp input sourceExtension with
  | .ok source => followExpansion source.path.parent t (Expansion.start source.text .empty #[])
  | .error _ => return t

/-- The tree after the log file that the options ask for was opened. -/
def withLogFile (t : Tree) (o : Options) : Tree :=
  match Log.Sinks.configure { tree := t, time := "" } (logSettings o) with
  | .ok sinks => sinks.tree
  | .error _ => t

/-- Learn the files that a request asks for. -/
def follow : Request → IO Tree
  | .runProgram input o => do
    let t ← learn {} (logSettings o).path?.toList
    followInput (withLogFile t o) input
  | _ => return {}

/-- The time as log lines tell it. -/
def clock : IO String := do
  return (← Std.Time.PlainDateTime.now).format "uuuu-MM-dd HH:mm:ss"

/-- The line of a record on the console. -/
def consoleLine (r : Log.Record) : String :=
  Text.padRight 8 (Log.Level.name r.level) ++ " " ++ r.message ++ "\n"

/-- Make the directories that a command has made, and write the lines of its log file. -/
def writeLog (sinks : Log.Sinks) : IO Unit := do
  match sinks.place with
  | none => return
  | some place =>
    sinks.tree.directories.reverse.forM fun place => IO.FS.createDirAll place.path.text
    let handle ← IO.FS.Handle.mk place.path.text .append
    handle.putStr (sinks.linesAt place)

/-- Write what came of a command. -/
def report (r : Result) : IO UInt32 := do
  (← IO.getStdout).putStr r.outcome.out
  let err ← IO.getStderr
  match r.sinks.settings with
  | some settings =>
    (Log.atLeast settings.consoleLevel r.outcome.log).forM fun r => err.putStr (consoleLine r)
  | none => pure ()
  err.putStr r.outcome.err
  writeLog r.sinks
  match r.outcome.status with
  | .ok status => return status.toUInt32
  | .error escape =>
    err.putStr (escape.message ++ "\n")
    return 1

/-- A run goes on until the program stops. -/
def unlimited : Budget := ⟨4611686018427387904, 4611686018427387904⟩

end CellMachine.Shell

def main (args : List String) : IO UInt32 := do
  let tree ← match CellMachine.CommandLine.readArguments args with
    | .ok request => CellMachine.Shell.follow request
    | .error _ => pure {}
  let time ← CellMachine.Shell.clock
  CellMachine.Shell.report
    (CellMachine.CommandLine.execute { tree, time } CellMachine.Shell.unlimited args)
