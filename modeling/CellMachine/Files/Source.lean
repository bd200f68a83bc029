import CellMachine.Files.Basic

/-!
# Source files

A source is named with or without its extension: if nothing has the name itself, the name with
the extension is tried. The look-up is repeated a number of times before it is given up, and each
failure is logged.
-/

namespace CellMachine.Files

/-- The extension that a source name may leave off. -/
def sourceExtension : String := ".vm"

/-- How many times a look-up is made. -/
def openAttempts : Int := 2

/-- The text of a source and the path it was read from. -/
structure Source where
  text : String
  path : Path
  deriving DecidableEq, Repr

/-- The reasons for which a source is not read. -/
inductive SourceFault where
  /-- Every attempt failed; the cause is that of the last one. -/
  | unreadable (filename : String) (cause : Option ReadFault)
  /-- The name holds a NUL character. -/
  | nulCharacter
  deriving DecidableEq, Repr

def SourceFault.message : SourceFault → String
  | .unreadable filename _ =>
    "File was not found, or does not exist. Unable to interpret. (" ++ filename ++ ")"
  | .nulCharacter => "embedded null byte"

def readAt (files : Files) (path : Path) : Except ReadFault Source :=
  (files.readText path).map fun text => ⟨String.ofList text, path⟩

/-- One look-up: the name itself, then the name with the extension. -/
def lookUp (files : Files) (filename extension : String) : Except ReadFault Source :=
  match files.readAt (Path.ofText filename) with
  | .error (.unopened _ .notFound) => files.readAt (Path.ofText (filename ++ extension))
  | answer => answer

/-- What is logged when a look-up fails. -/
def failureRecord (filename : String) (attempt : Nat) (attempts : Int) (fault : ReadFault) :
    Log.Record :=
  ⟨Log.Level.debug, Log.sourceLogger, "read_source:52",
    s!"open {filename} failed (attempt {attempt}/{attempts}): " ++ fault.message⟩

/-- The attempts from number `attempt` on, after `log` was logged. -/
def attemptFrom (files : Live) (filename extension : String) (attempts : Int)
    (last : Option ReadFault) (attempt : Nat) (log : Array Log.Record) :
    Nat → Except SourceFault Source × Array Log.Record
  | 0 => (.error (.unreadable filename last), log)
  | remaining + 1 =>
    match (files log).lookUp filename extension with
    | .ok source => (.ok source, log)
    | .error fault =>
      if fault.isNulCharacter then (.error .nulCharacter, log)
      else
        attemptFrom files filename extension attempts (some fault) (attempt + 1)
          (log.push (failureRecord filename attempt attempts fault)) remaining

/-- Read a source by name. What is logged comes after `log`. -/
def readSource (files : Live) (filename extension : String) (attempts : Int)
    (log : Array Log.Record) : Except SourceFault Source × Array Log.Record :=
  attemptFrom files filename extension attempts none 1 log attempts.toNat

end CellMachine.Files
