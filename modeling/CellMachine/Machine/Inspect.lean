import CellMachine.Machine.Basic
import CellMachine.Text.Column

/-!
# Snapshots and dumps

A snapshot is a copy of some cells as bytes, each cell as a little-endian two's complement word.
Two snapshots are compared cell by cell. The dumps show cells as text: the stack one word a line,
the block four words a row.
-/

namespace CellMachine

/-! ### Words as bytes -/

/-- The four bytes of a word, the least significant first. -/
def wordBytes (v : Int) : List UInt8 :=
  let n := (v % 4294967296).toNat
  [n, n / 256, n / 65536, n / 16777216].map fun k => UInt8.ofNat (k % 256)

/-- The signed word of four bytes, the least significant first. -/
def wordOfBytes (b₀ b₁ b₂ b₃ : UInt8) : Int :=
  Word.wrap (b₀.toNat + 256 * b₁.toNat + 65536 * b₂.toNat + 16777216 * b₃.toNat)

/-- The words of a byte string; `none` if a part of a word is left over. -/
def wordsOfBytes? : List UInt8 → Option (List Int)
  | [] => some []
  | b₀ :: b₁ :: b₂ :: b₃ :: rest => (wordsOfBytes? rest).map (wordOfBytes b₀ b₁ b₂ b₃ :: ·)
  | _ => none

namespace Snapshot

/-- The words that differ, with the index of their cell, the old and the new word. The words are
those of the cells from `base` on; the longer list is cut to the length of the shorter. -/
def changedWords (base : Int) : List Int → List Int → List (Int × Int × Int)
  | a :: as, b :: bs =>
    if a = b then changedWords (base + 1) as bs
    else (base, a, b) :: changedWords (base + 1) as bs
  | _, _ => []

/-- The cells that differ between two snapshots that begin at cell `base`; `none` if either holds
a part of a word. -/
def diff? (earlier later : List UInt8) (base : Int) : Option (List (Int × Int × Int)) := do
  let a ← wordsOfBytes? earlier
  let b ← wordsOfBytes? later
  return changedWords base a b

/-- What is reported for bytes that are no whole number of words. -/
def partialWordMessage : String := "memoryview: length is not a multiple of itemsize"

end Snapshot

namespace Machine

/-- The bytes of `count` cells from `start` on. Negative positions count from the end of the
block, and positions beyond either end are brought back to it. -/
def snapshot (m : Machine) (start count : Int) : Except Fault (List UInt8) :=
  if m.released then .error .releasedRead
  else
    let clamp (i : Int) : Nat := min m.cellCount (if i < 0 then i + m.cellCount else i).toNat
    let first := clamp start
    .ok ((m.cells.range first (clamp (start + count) - first)).flatMap wordBytes)

/-- Read `count` cells from `start` on. -/
def readCells (start : Int) : Nat → Exec (List Int)
  | 0 => pure []
  | count + 1 => do
    let v ← readCell start
    return v :: (← readCells (start + 1) count)

/-! ### The stack as text -/

/-- The lines of `count` cells from `cell` on, each with its index in base 16. -/
def stackLines (cell : Int) : Nat → Exec (List String)
  | 0 => pure []
  | count + 1 => do
    let v ← readCell cell
    let line := Text.zeroPadded 16 8 cell ++ "  " ++ Text.rightAligned 11 v
    return line :: (← stackLines (cell + 1) count)

/-- The top `limit` words of the stack, the last pushed first. -/
def dumpStack (limit : Int) : Exec String := do
  let m ← get
  let sp := m.registers.sp
  let lines ← stackLines sp (min m.registers.bp (sp + limit) - sp).toNat
  return if lines.isEmpty then "(stack empty)" else "\n".intercalate lines

/-! ### The block as text -/

/-- A word as eight digits in base 16. -/
def wordDigits (v : Int) : String := Text.zeroPadded 16 8 (v % 4294967296)

/-- One row of a dump: the index of its first cell and `count` words. -/
def dumpRow (start : Int) (count : Nat) : Exec String := do
  let words ← readCells start count
  return Text.zeroPadded 16 8 start ++ "  " ++ " ".intercalate (words.map wordDigits)

/-- The rows of `count` cells from `start` on, four cells a row. -/
def dumpRows (start : Int) (count : Nat) : Exec (List String) :=
  if h : count = 0 then pure []
  else do
    let row ← dumpRow start (min 4 count)
    return row :: (← dumpRows (start + 4) (count - 4))
termination_by count

/-- `count` cells from `start` on as text. -/
def hexdump (start count : Int) : Exec String := do
  return "\n".intercalate (← dumpRows start count.toNat)

end Machine

end CellMachine
