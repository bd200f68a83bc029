import CellMachine.Files.Path
import CellMachine.Log
import CellMachine.Text.Quoted
import CellMachine.Text.Utf8

/-!
# Files

`Files` tells what opening each path gives: bytes, or the reason for which there are none. The
library reads files through it alone.

A program that writes a log file may read that file too. `Files.Live` are files as they stand
after given records were logged; `Files.still` are files that no record changes.
-/

namespace CellMachine.Files

/-- The reasons for which a path is not opened for reading. The files are those of a host that may
read every one of them, so a lack of permission is none of the reasons. -/
inductive OpenFault where
  | notFound
  | notDirectory
  | isDirectory
  | nameTooLong
  | nulCharacter
  deriving DecidableEq, Repr

def OpenFault.message (path : Path) : OpenFault → String
  | .notFound => "[Errno 2] No such file or directory: " ++ Text.quoted path.text
  | .notDirectory => "[Errno 20] Not a directory: " ++ Text.quoted path.text
  | .isDirectory => "[Errno 21] Is a directory: " ++ Text.quoted path.text
  | .nameTooLong => "[Errno 36] File name too long: " ++ Text.quoted path.text
  | .nulCharacter => "embedded null byte"

end Files

/-- What opening each path gives. -/
def Files := Files.Path → Except Files.OpenFault (List UInt8)

namespace Files

/-- What the files are after some records were logged. -/
abbrev Live := Array Log.Record → Files

/-- Files that do not depend on what is logged. -/
def still (files : Files) : Live := fun _ => files

/-- The reasons for which a file is not read as text. -/
inductive ReadFault where
  | unopened (path : Path) (fault : OpenFault)
  | undecodable (fault : Text.DecodeFault)
  deriving DecidableEq, Repr

def ReadFault.message : ReadFault → String
  | .unopened path fault => fault.message path
  | .undecodable fault => fault.message

/-- The path could not even be asked for. -/
def ReadFault.isNulCharacter : ReadFault → Bool
  | .unopened _ .nulCharacter => true
  | _ => false

/-- The text of a file, with every line end as a line feed. -/
def readText (files : Files) (path : Path) : Except ReadFault (List Char) :=
  match files path with
  | .error fault => .error (.unopened path fault)
  | .ok bytes =>
    match Text.decode bytes with
    | .error fault => .error (.undecodable fault)
    | .ok chars => .ok (Text.unixLines chars)

/-- There is something at a path. Only a name that is too long leaves this undecided. -/
def isPresent (files : Files) (path : Path) : Except OpenFault Bool :=
  match files path with
  | .ok _ | .error .isDirectory => .ok true
  | .error .nameTooLong => .error .nameTooLong
  | .error _ => .ok false

end Files

end CellMachine
