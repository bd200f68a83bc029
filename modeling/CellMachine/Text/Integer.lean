import CellMachine.Text.Blank
import CellMachine.Text.Digit
import CellMachine.Text.Quoted

/-!
# Integer texts

An integer is written as blanks, an optional sign, digits and blanks. Single underscores may
stand between digits; the digits may be the decimal digits of any script. In base 16 the digits
may be led by `0x`, after which one underscore may stand.

Decimal digits are limited in number. The limit is checked on the run of digits itself, before
what follows the run is looked at.
-/

namespace CellMachine.Text

/-- The greatest number of decimal digits that are converted, in either direction. -/
def digitLimit : Nat := 4300

/-- The reasons for which a text is not read as an integer. -/
inductive IntegerFault where
  | malformed (radix : Nat) (text : String)
  | tooManyDigits (count : Nat)
  deriving DecidableEq, Repr

/-- At most this many characters of a rejected text are shown, the opening quote included. -/
def shownLimit : Nat := 200

def IntegerFault.message : IntegerFault → String
  | .malformed radix text =>
    s!"invalid literal for int() with base {radix}: " ++
      String.ofList ((quoted text).toList.take shownLimit)
  | .tooManyDigits count =>
    s!"Exceeds the limit ({digitLimit} digits) for integer string conversion: " ++
      s!"value has {count} digits; use sys.set_int_max_str_digits() to increase the limit"

/-- A character in the form in which integers are scanned: blanks as a space and decimal digits
in ASCII. The separators U+001C to U+001F are no blanks here. -/
def scanned (c : Char) : Char :=
  if c.toNat < 0x80 then
    if 0x09 ≤ c.toNat ∧ c.toNat ≤ 0x0D then ' ' else c
  else if isBlank c then ' '
  else match decimalValue? c with
    | some v => Char.ofNat ('0'.toNat + v)
    | none => c

/-- A sign at the front is split off; `true` for a minus. -/
def splitSign : List Char → Bool × List Char
  | '-' :: rest => (true, rest)
  | '+' :: rest => (false, rest)
  | rest => (false, rest)

/-- The mark `0x`, and one underscore after it, are dropped from the front. -/
def dropHexMark : List Char → List Char
  | '0' :: x :: rest =>
    if x = 'x' ∨ x = 'X' then
      match rest with
      | '_' :: rest => rest
      | rest => rest
    else '0' :: x :: rest
  | rest => rest

/-- No underscore ends the run or follows another one. -/
def barsSeparate : List Char → Bool
  | [] => true
  | ['_'] => false
  | '_' :: '_' :: _ => false
  | _ :: rest => barsSeparate rest

/-- A run of digits and underscores in which the underscores stand between digits. -/
def isDigitRun (run : List Char) : Bool :=
  !run.isEmpty && run.head? != some '_' && barsSeparate run

/-- The integer that a text denotes in base 10 or 16. -/
def readInteger (radix : Nat) (text : String) : Except IntegerFault Int :=
  let (negative, unsigned) := splitSign ((text.toList.map scanned).dropWhile (· == ' '))
  let body := if radix = 16 then dropHexMark unsigned else unsigned
  let inRun (c : Char) : Bool := isDigit radix c || c == '_'
  let run := body.takeWhile inRun
  let digits := run.filter (· != '_')
  if !isDigitRun run then .error (.malformed radix text)
  else if radix = 10 ∧ digits.length > digitLimit then .error (.tooManyDigits digits.length)
  else if !(body.dropWhile inRun).all (· == ' ') then .error (.malformed radix text)
  else
    let n : Int := numberOf radix digits
    .ok (if negative then -n else n)

/-- The least number that has too many digits to be converted. -/
def writableBound : Nat := Nat.pow 10 digitLimit

/-- An integer has few enough digits to be converted. -/
def isWritable (n : Int) : Bool := n.natAbs < writableBound

/-- The text of an integer, when it has few enough digits to be converted. -/
def integerText? (n : Int) : Option String :=
  if isWritable n then some (toString n) else none

/-- What is reported in place of an integer with too many digits. -/
def tooLongToShow : String :=
  s!"Exceeds the limit ({digitLimit} digits) for integer string conversion; " ++
    "use sys.set_int_max_str_digits() to increase the limit"

end CellMachine.Text
