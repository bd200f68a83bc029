import CellMachine.Text.Digit
import CellMachine.Text.Integer
import CellMachine.Word

/-!
# Integer literals

A literal is an optional sign and digits in one of these notations: base 16 with the ending `h` or
`|h`, base 2 with the ending `b` or `|b`, base 16 after `0x` or `-0x`, or base 10. The endings are
looked at first, so that a text in base 16 that ends in the digit `b` is taken as base 2.

The value must be a signed 32-bit word.
-/

namespace CellMachine.Assembly

/-- The reasons for which a text is no literal. -/
inductive ValueFault where
  | malformed (radix : Nat) (digits : String)
  | outOfRange (text : String)
  | tooManyDigits (count : Nat)
  deriving DecidableEq, Repr

def ValueFault.message : ValueFault → String
  | .malformed radix digits => s!"not a base-{radix} integer: " ++ Text.quoted digits
  | .outOfRange text => "value out of 32-bit range: " ++ Text.quoted text
  | .tooManyDigits count => (Text.IntegerFault.tooManyDigits count).message

/-- The number of an optional sign and digits in a base. -/
def readSigned (radix : Nat) (text : List Char) : Except ValueFault Int :=
  let (negative, digits) := Text.splitSign text
  if digits.isEmpty ∨ ¬ digits.all (Text.isDigit radix) then
    .error (.malformed radix (String.ofList text))
  else if radix = 10 ∧ digits.length > Text.digitLimit then
    .error (.tooManyDigits digits.length)
  else
    let n : Int := Text.numberOf radix digits
    .ok (if negative then -n else n)

/-- The number of a literal that has no letter for its base at the end. -/
def readPlain (text : List Char) : Except ValueFault Int :=
  match text with
  | '0' :: 'x' :: digits => readSigned 16 digits
  | '-' :: '0' :: 'x' :: digits => (readSigned 16 digits).map (- ·)
  | digits => readSigned 10 digits

/-- The number of a literal, of any size. -/
def readLiteral (text : List Char) : Except ValueFault Int :=
  match text.reverse with
  | 'h' :: '|' :: digits => readSigned 16 digits.reverse
  | 'h' :: digits => readSigned 16 digits.reverse
  | 'b' :: '|' :: digits => readSigned 2 digits.reverse
  | 'b' :: digits => readSigned 2 digits.reverse
  | _ => readPlain text

/-- The signed 32-bit word of a literal. -/
def readValue (text : String) : Except ValueFault Int :=
  match readLiteral text.toList with
  | .error fault => .error fault
  | .ok v => if Word.InRange v then .ok v else .error (.outOfRange text)

end CellMachine.Assembly
