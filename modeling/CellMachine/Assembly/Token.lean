import CellMachine.Table
import CellMachine.Text.Column
import CellMachine.Text.Quoted
import CellMachine.Text.Split

/-!
# Token lines

Source text is split into lines and each line into tokens. A `#` starts a comment that runs to
the end of its line. Spaces, tabs, commas and carriage returns separate tokens. A token that is a
defined name is replaced by its value, which is not split again.

A line feed ends a line rather than standing between two, so the text after the last one counts
as a line only if there is any.
-/

namespace CellMachine.Assembly

/-- A character separates tokens. -/
def isSeparator (c : Char) : Bool := c == ' ' || c == '\t' || c == ',' || c == '\r'

/-- The part of a line before its comment. -/
def beforeComment (line : List Char) : List Char := line.takeWhile (· != '#')

/-- The tokens of a line, as they are written. -/
def words (line : List Char) : List String :=
  ((Text.splitWhere isSeparator (beforeComment line)).filter fun w => !w.isEmpty).map
    String.ofList

/-- A token after the defines were applied to it. -/
def substitute (defines : Table String) (token : String) : String :=
  (defines.find? token).getD token

/-- The text without a line feed at its end. -/
def dropFinalNewline (text : List Char) : List Char :=
  if text.getLast? = some '\n' then text.dropLast else text

/-- The lines of a text. -/
def lines (text : List Char) : List (List Char) :=
  let body := dropFinalNewline text
  if body.isEmpty then [] else Text.splitWhere (· == '\n') body

/-- The tokens of every line of a text. -/
def tokenize (defines : Table String) (text : String) : List (List String) :=
  (lines text.toList).map fun line => (words line).map (substitute defines)

/-- One line of a token dump: the index of the line and its tokens between quotes. -/
def dumpLine (index : Nat) (tokens : List String) : String :=
  Text.rightAligned 4 index ++ ": " ++ " ".intercalate (tokens.map Text.quoted)

/-- The token lines as text. -/
def dumpTokens (tokenLines : List (List String)) : String :=
  "\n".intercalate (tokenLines.mapIdx dumpLine)

end CellMachine.Assembly
