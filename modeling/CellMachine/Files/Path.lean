import CellMachine.Text.Split

/-!
# Paths

A path is a sequence of names, relative or under a root. Reading a path drops empty names and the
name `.`; the name `..` stays. Two leading slashes are a root of their own.
-/

namespace CellMachine.Files

structure Path where
  /-- The leading slashes of an absolute path. -/
  root : String := ""
  parts : List String := []
  deriving DecidableEq, Repr

namespace Path

/-- The root of a path with the given number of leading slashes. -/
def rootOf : Nat → String
  | 0 => ""
  | 2 => "//"
  | _ => "/"

def ofText (text : String) : Path :=
  let cs := text.toList
  { root := rootOf (cs.takeWhile (· == '/')).length
    parts := ((Text.splitWhere (· == '/') cs).map String.ofList).filter
      fun part => part != "" && part != "." }

def text (p : Path) : String :=
  if p.root = "" ∧ p.parts = [] then "." else p.root ++ "/".intercalate p.parts

def isAbsolute (p : Path) : Bool := p.root != ""

/-- The path `p` seen from the directory `base`. -/
def under (base p : Path) : Path :=
  if p.isAbsolute then p else ⟨base.root, base.parts ++ p.parts⟩

/-- The directory in which a path lies. -/
def parent (p : Path) : Path := { p with parts := p.parts.dropLast }

end Path

end CellMachine.Files
