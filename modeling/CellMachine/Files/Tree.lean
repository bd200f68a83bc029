import CellMachine.Files.Basic

/-!
# File trees

A tree holds directories and files, each at a place. A place is a list of names below the current
directory, below a directory above it, or below the root; of the directories above, only that they
are there is known at first.

* `Tree.find` follows a path name by name, where `..` leads to the directory above;
* `Tree.files` is what opening each path gives;
* `Tree.makeDirectories` makes a directory and those that lead to it;
* `Tree.openForAppend` opens a file for writing at its end, and makes it when it is not there.

A path and a place differ: `a/../b` names the place `b`, but only if `a` is a directory.
-/

namespace CellMachine.Files

/-- The directory from which a place counts its names. -/
inductive Anchor where
  /-- The directory so many levels above the current one. -/
  | above (levels : Nat)
  | root
  deriving DecidableEq, Repr

structure Place where
  anchor : Anchor
  names : List String := []
  deriving DecidableEq, Repr

namespace Place

/-- The current directory. -/
def current : Place := ⟨.above 0, []⟩

/-- The place of a name in a directory. -/
def enter (p : Place) (name : String) : Place := ⟨p.anchor, p.names ++ [name]⟩

/-- The directory above. The root is above itself. -/
def up (p : Place) : Place :=
  match p.names with
  | [] =>
    match p.anchor with
    | .above levels => ⟨.above (levels + 1), []⟩
    | .root => p
  | names => ⟨p.anchor, names.dropLast⟩

/-- The place that names lead to when all on the way are directories. -/
def follow (p : Place) (names : List String) : Place :=
  names.foldl (fun p name => if name = ".." then p.up else p.enter name) p

/-- A place is another one or lies below it. -/
def holds (p q : Place) : Bool := p.anchor = q.anchor && p.names.isPrefixOf q.names

/-- The plain path of a place. -/
def path (p : Place) : Path :=
  match p.anchor with
  | .above levels => ⟨"", List.replicate levels ".." ++ p.names⟩
  | .root => ⟨"/", p.names⟩

end Place

structure Tree where
  directories : List Place := []
  contents : List (Place × List UInt8) := []

/-- What a path leads to. -/
inductive Node where
  | directory (place : Place)
  | file (place : Place) (bytes : List UInt8)

namespace Tree

/-- The longest name of a directory entry, in bytes. -/
def nameLimit : Nat := 255

/-- The longest path, in bytes. -/
def pathLimit : Nat := 4095

/-! ### Looking up -/

/-- A directory is one that was listed, or one that leads to something listed. -/
def hasDirectory (t : Tree) (p : Place) : Bool :=
  p.names.isEmpty || t.directories.any p.holds ||
    t.contents.any fun (q, _) => q != p && p.holds q

/-- What is at a place. -/
def node? (t : Tree) (p : Place) : Option Node :=
  match t.contents.lookup p with
  | some bytes => some (.file p bytes)
  | none => if t.hasDirectory p then some (.directory p) else none

/-- Follow names from a directory. -/
def walk (t : Tree) (place : Place) : List String → Except OpenFault Node
  | [] => .ok (.directory place)
  | name :: rest =>
    if name = ".." then walk t place.up rest
    else if name.utf8ByteSize > nameLimit then .error .nameTooLong
    else match t.node? (place.enter name) with
      | none => .error .notFound
      | some (.directory place) => walk t place rest
      | some (.file place bytes) =>
        if rest.isEmpty then .ok (.file place bytes) else .error .notDirectory

/-- The directory that the names of a path are followed from. -/
def startOf (path : Path) : Place := if path.isAbsolute then ⟨.root, []⟩ else .current

/-- Some paths cannot be asked for whatever the tree holds. -/
def refusal? (path : Path) : Option OpenFault :=
  if path.text.toList.contains (Char.ofNat 0) then some .nulCharacter
  else if path.text.utf8ByteSize > pathLimit then some .nameTooLong
  else none

/-- What a path leads to. -/
def find (t : Tree) (path : Path) : Except OpenFault Node :=
  match refusal? path with
  | some fault => .error fault
  | none => t.walk (startOf path) path.parts

/-- What opening each path gives. -/
def files (t : Tree) : Files := fun path =>
  match t.find path with
  | .ok (.file _ bytes) => .ok bytes
  | .ok (.directory _) => .error .isDirectory
  | .error fault => .error fault

/-! ### Making directories and files -/

/-- The reasons for which a directory or a file is not made. -/
inductive MakeFault where
  /-- Something is there already. -/
  | present
  /-- The place is not reached. -/
  | unreachable (fault : OpenFault)
  deriving DecidableEq, Repr

def MakeFault.message (path : Path) : MakeFault → String
  | .present => "[Errno 17] File exists: " ++ Text.quoted path.text
  | .unreachable fault => fault.message path

/-- Make one directory in a directory that is there. -/
def makeDirectory (t : Tree) (path : Path) : Except MakeFault Tree :=
  match refusal? path, path.parts.getLast? with
  | some fault, _ => .error (.unreachable fault)
  | none, none => .error .present
  | none, some name =>
    match t.walk (startOf path) path.parts.dropLast with
    | .error fault => .error (.unreachable fault)
    | .ok (.file _ _) => .error (.unreachable .notDirectory)
    | .ok (.directory above) =>
      if name = ".." then .error .present
      else if name.utf8ByteSize > nameLimit then .error (.unreachable .nameTooLong)
      else if (t.node? (above.enter name)).isSome then .error .present
      else .ok { t with directories := above.enter name :: t.directories }

/-- A path that could not be made, and why. -/
structure Unmade where
  path : Path
  fault : MakeFault
  deriving DecidableEq, Repr

def Unmade.message (u : Unmade) : String := u.fault.message u.path

/-- Make a directory; one that is there already will do. -/
def ensureDirectory (t : Tree) (path : Path) : Except Unmade Tree :=
  match t.makeDirectory path with
  | .ok t => .ok t
  | .error fault =>
    match t.find path with
    | .ok (.directory _) => .ok t
    | _ => .error ⟨path, fault⟩

/-- Make a directory, and first those above it if it cannot be reached. The names of the path come
in reverse. -/
def makeReversed (t : Tree) (root : String) : List String → Except Unmade Tree
  | [] => .ok t
  | name :: above =>
    let path : Path := ⟨root, (name :: above).reverse⟩
    match t.makeDirectory path with
    | .error (.unreachable .notFound) =>
      match makeReversed t root above with
      | .error unmade => .error unmade
      | .ok t => t.ensureDirectory path
    | _ => t.ensureDirectory path

/-- Make a directory and those that lead to it. -/
def makeDirectories (t : Tree) (path : Path) : Except Unmade Tree :=
  t.makeReversed path.root path.parts.reverse

/-- Open a file for writing at its end. A file that is not there is made, in a directory that
is. -/
def openForAppend (t : Tree) (path : Path) : Except OpenFault (Tree × Place) :=
  match t.find path with
  | .ok (.file place _) => .ok (t, place)
  | .ok (.directory _) => .error .isDirectory
  | .error .notFound =>
    match path.parts.getLast?, t.find path.parent with
    | some name, .ok (.directory above) =>
      .ok ({ t with contents := (above.enter name, []) :: t.contents }, above.enter name)
    | _, _ => .error .notFound
  | .error fault => .error fault

end Tree

end CellMachine.Files
