/-!
# Columns of text

Numbers and words are written in columns of a least width: `padLeft` and `padRight` fill with a
character on one side, `zeroPadded` puts the filling zeros between the sign and the digits.
-/

namespace CellMachine.Text

/-- Fill on the left up to `width` characters. -/
def padLeft (width : Nat) (fill : Char) (s : List Char) : List Char :=
  List.replicate (width - s.length) fill ++ s

/-- Fill with spaces on the right up to `width` characters. -/
def padRight (width : Nat) (s : String) : String :=
  String.ofList (s.toList ++ List.replicate (width - s.toList.length) ' ')

/-- The digits of a natural number in a base up to 16, letters in upper case. -/
def upperDigits (base n : Nat) : List Char := (Nat.toDigits base n).map Char.toUpper

/-- A number in a given base, filled with zeros after the sign up to `width` characters. -/
def zeroPadded (base width : Nat) (n : Int) : String :=
  if n < 0 then
    String.ofList ('-' :: padLeft (width - 1) '0' (upperDigits base n.natAbs))
  else
    String.ofList (padLeft width '0' (upperDigits base n.natAbs))

/-- A decimal number, filled with spaces on the left up to `width` characters. -/
def rightAligned (width : Nat) (n : Int) : String :=
  String.ofList (padLeft width ' ' (toString n).toList)

/-- A number in base 16 with its sign, `0x` and lower-case digits. -/
def hexLiteral (n : Int) : String :=
  (if n < 0 then "-0x" else "0x") ++ String.ofList (Nat.toDigits 16 n.natAbs)

end CellMachine.Text
