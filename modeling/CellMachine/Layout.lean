import CellMachine.Machine.Basic
import CellMachine.Text.Integer

/-!
# Layouts

A layout says how large the block of a machine is, how much of its top is the stack, and whether
the machine is checked. Named profiles give layouts, of which parts may be overridden. Sizes may
be written with a letter for their unit.
-/

namespace CellMachine

structure Layout where
  memorySize : Int
  stackSize : Int
  checked : Bool
  deriving DecidableEq, Repr

/-- The reasons for which there is no layout. -/
inductive LayoutFault where
  | memorySize (size : Int)
  | stackSize (size : Int)
  | stackTooLarge (stack memory : Int)
  | unknownProfile (name : String)
  deriving DecidableEq, Repr

/-- A named layout. -/
structure Profile where
  layout : Layout
  description : String
  deriving DecidableEq, Repr

namespace Layout

/-- The layout that is used when nothing is said. -/
def standard : Layout := ⟨67108864, 2097152, false⟩

/-- The sizes that a block can be divided by. -/
def validateSizes (memorySize stackSize : Int) : Except LayoutFault Unit :=
  if memorySize ≤ 0 ∨ memorySize % wordSize ≠ 0 then .error (.memorySize memorySize)
  else if stackSize < 0 ∨ stackSize % wordSize ≠ 0 then .error (.stackSize stackSize)
  else if stackSize > memorySize then .error (.stackTooLarge stackSize memorySize)
  else .ok ()

end Layout

namespace Profile

/-- The profiles and their names. -/
def all : List (String × Profile) :=
  [("default", ⟨Layout.standard, "Reference layout: 64 MB block, 2 MB stack, unchecked"⟩),
   ("small", ⟨⟨65536, 16384, false⟩, "64 KB block, 16 KB stack, for embedding and tests"⟩),
   ("checked", ⟨{ Layout.standard with checked := true },
      "Reference layout with bounds-checked memory and stack"⟩)]

def names : List String := all.map Prod.fst

/-- The profile of a name with some parts overridden. -/
def resolve (name : String) (memorySize stackSize : Option Int) (checked : Option Bool) :
    Except LayoutFault Profile :=
  match all.lookup name with
  | none => .error (.unknownProfile name)
  | some p =>
    let layout : Layout :=
      { memorySize := memorySize.getD p.layout.memorySize
        stackSize := stackSize.getD p.layout.stackSize
        checked := checked.getD p.layout.checked }
    match Layout.validateSizes layout.memorySize layout.stackSize with
    | .error fault => .error fault
    | .ok () => .ok { p with layout }

end Profile

/-- A message with a number in it; a number with too many digits takes the place of the message. -/
def withNumber (n : Int) (message : String → String) : String :=
  match Text.integerText? n with
  | some text => message text
  | none => Text.tooLongToShow

def LayoutFault.message : LayoutFault → String
  | .memorySize size =>
    withNumber size fun text => s!"memory size must be a positive multiple of {wordSize}, got {text}"
  | .stackSize size =>
    withNumber size fun text =>
      s!"stack size must be a non-negative multiple of {wordSize}, got {text}"
  | .stackTooLarge stack memory =>
    withNumber stack fun stackText =>
      withNumber memory fun memoryText =>
        s!"stack size {stackText} does not fit in memory size {memoryText}"
  | .unknownProfile name =>
    "unknown VM profile " ++ Text.quoted name ++ " (choose from " ++
      ", ".intercalate Profile.names ++ ")"

/-! ### Sizes as text -/

/-- The number of bytes in a unit, by its letter. -/
def unitOf? (c : Char) : Option Int :=
  if c = 'K' ∨ c = 'k' then some 1024
  else if c = 'M' ∨ c = 'm' then some 1048576
  else none

/-- The text of a size without its unit, and the number of bytes in the unit. -/
def splitUnit (text : List Char) : List Char × Int :=
  match text.reverse with
  | [] => (text, 1)
  | c :: rest =>
    match unitOf? c with
    | some unit => (rest.reverse, unit)
    | none => (text, 1)

/-- A text is marked as a number in base 16. -/
def hasHexMark : List Char → Bool
  | '0' :: c :: _ => c == 'x' || c == 'X'
  | _ => false

/-- The number of bytes of a size, in base 10 or after `0x` in base 16. -/
def readSize (text : String) : Except Text.IntegerFault Int :=
  let (number, unit) := splitUnit (Text.trimChars text.toList)
  let radix := if hasHexMark number then 16 else 10
  (Text.readInteger radix (String.ofList number)).map (· * unit)

end CellMachine
