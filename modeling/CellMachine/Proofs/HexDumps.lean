import CellMachine.Proofs.Literals
import CellMachine.Proofs.SnapshotDiffs
import CellMachine.Proofs.StackRefinement
import CellMachine.Proofs.Tokens

/-!
# Dumps read back

A dump is meant for a reader: four cells a row, each row headed by the index of its first cell, all
numbers in base 16. Here the reader is a function of its own, which knows the shape of a row and
nothing of how rows are made (`Dump.read?`). It takes the digits of a word as 32 bits and the bits
as a signed number.

* `Dump.number?_padded` and `Dump.word?_wordDigits` are the numbers. The sign of a cell is not
  written, so eight digits have to be enough to tell all words apart.
* `Dump.row?_text` is a row, and `Dump.read?_text` a text of rows.
* `Machine.OfWords.dumpRows_eq` says which rows a dump has. The rows are written one after the other,
  each taking four cells off the count, and `Dump.rowsOf` says the same by the number of the row.
* `Dump.flatMap_rowsOf` puts the rows together. Wherever the last row ends, no cell is lost between
  two rows and none is shown twice.
* `hexdump_reads_back` is about any state of a memory.
-/

namespace CellMachine

open Exec

/-! ### The reader -/

namespace Dump

/-- A digit in base 16, the letters in upper case. -/
def isDigit (c : Char) : Bool := ('0' ≤ c && c ≤ '9') || ('A' ≤ c && c ≤ 'F')

/-- The number that some digits write. -/
def number? (digits : List Char) : Option Nat :=
  if !digits.isEmpty && digits.all isDigit then some (Text.numberOf 16 digits) else none

/-- The word whose two's complement eight digits write. -/
def word? (digits : List Char) : Option Int :=
  if digits.length = 8 then (number? digits).map fun n => (BitVec.ofNat 32 n).toInt else none

/-- A row as it is read. -/
structure Row where
  address : Nat
  words : List Int
  deriving DecidableEq, Repr

/-- A row has its address, two spaces, and words with a space between them. -/
def row? (line : List Char) : Option Row :=
  match Text.splitWhere (· == ' ') line with
  | address :: [] :: words => do return ⟨← number? address, ← words.mapM word?⟩
  | _ => none

/-- The rows of a text, one a line. -/
def read? (text : String) : Option (List Row) := (Assembly.lines text.toList).mapM row?

/-! ### Numbers -/

theorem isDigit_of_mem_upperDigits {n : Nat} {c : Char} (h : c ∈ Text.upperDigits 16 n) :
    isDigit c = true := by
  obtain ⟨ds, hds, hlt, -⟩ := Assembly.exists_digits (by decide : 1 < 16) n
  rw [Text.upperDigits, hds, List.map_map] at h
  obtain ⟨d, hd, rfl⟩ := List.mem_map.mp h
  have hdigit : ∀ d < 16, isDigit (Nat.digitChar d).toUpper = true := by decide
  exact hdigit d (hlt d hd)

/-- The digits of a column, the filling zeros included. -/
theorem isDigit_of_mem_padded {width n : Nat} {c : Char}
    (h : c ∈ Text.padLeft width '0' (Text.upperDigits 16 n)) : isDigit c = true := by
  rcases List.mem_append.mp h with h | h
  · rw [List.eq_of_mem_replicate h]
    decide
  · exact isDigit_of_mem_upperDigits h

/-- **A number is read as it was written**, however wide the column is. -/
theorem number?_padded (width n : Nat) :
    number? (Text.padLeft width '0' (Text.upperDigits 16 n)) = some n := by
  have hnumeral := (Assembly.isNumeral_toDigits (by decide : 1 < 16) (Nat.le_refl 16) n).2
  obtain ⟨hne, -, hvalue⟩ := Text.isNumeral_iff.mp hnumeral
  have hfull : (Text.padLeft width '0' (Text.upperDigits 16 n)).isEmpty = false := by
    rw [List.isEmpty_eq_false_iff]
    exact List.append_ne_nil_of_right_ne_nil _ hne
  have hall : (Text.padLeft width '0' (Text.upperDigits 16 n)).all isDigit = true :=
    List.all_eq_true.mpr fun c hc => isDigit_of_mem_padded hc
  rw [number?, hfull, hall, Text.padLeft, Text.numberOf_replicate_append (by decide), hvalue]
  rfl

/-- Eight digits are enough for 32 bits. -/
theorem length_padded {n : Nat} (h : n < 4294967296) :
    (Text.padLeft 8 '0' (Text.upperDigits 16 n)).length = 8 := by
  have hdigits : (Nat.toDigits 16 n).length ≤ 8 :=
    (Nat.length_toDigits_le_iff (by decide) (by decide)).mpr h
  rw [Text.padLeft, Text.upperDigits, List.length_append, List.length_replicate, List.length_map]
  omega

theorem toList_zeroPadded (width n : Nat) :
    (Text.zeroPadded 16 width n).toList = Text.padLeft width '0' (Text.upperDigits 16 n) := by
  rw [Text.zeroPadded, if_neg (by omega), String.toList_ofList, Int.natAbs_natCast]

/-- The digits of a word are those of its remainder modulo 2^32. -/
theorem exists_toList_wordDigits (v : Int) :
    ∃ n : Nat, n < 4294967296 ∧ (n : Int) = v % 4294967296 ∧
      (Machine.wordDigits v).toList = Text.padLeft 8 '0' (Text.upperDigits 16 n) := by
  obtain ⟨n, hn⟩ : ∃ n : Nat, v % 4294967296 = n := ⟨(v % 4294967296).toNat, by omega⟩
  refine ⟨n, by omega, hn.symm, ?_⟩
  rw [Machine.wordDigits, hn, toList_zeroPadded]

/-- **A word is read as it was written.** The remainder has the same last 32 bits as the word. -/
theorem word?_wordDigits {v : Int} (h : Word.InRange v) :
    word? (Machine.wordDigits v).toList = some v := by
  obtain ⟨n, hlt, hn, hdigits⟩ := exists_toList_wordDigits v
  have hsigned : (BitVec.ofNat 32 n).toInt = v :=
    calc (BitVec.ofNat 32 n).toInt
        = (v % 4294967296).bmod 4294967296 := by rw [BitVec.toInt_ofNat', hn]
      _ = Word.wrap v := Int.emod_bmod v 4294967296
      _ = v := Word.wrap_of_inRange h
  rw [hdigits, word?, if_pos (length_padded hlt), number?_padded, Option.map_some, hsigned]

/-! ### Rows -/

/-- The text of a row. -/
def Row.text (row : Row) : String :=
  Text.zeroPadded 16 8 row.address ++ "  " ++
    " ".intercalate (row.words.map Machine.wordDigits)

/-- A row of at least one word, all of which are signed 32-bit words. -/
def Row.Proper (row : Row) : Prop := row.words ≠ [] ∧ ∀ v ∈ row.words, Word.InRange v

/-- The fields of a row, as lists of characters. -/
theorem Row.toList_text (row : Row) :
    row.text.toList =
      Text.padLeft 8 '0' (Text.upperDigits 16 row.address) ++
        ' ' :: ' ' :: [' '].intercalate (row.words.map fun v => (Machine.wordDigits v).toList) := by
  rw [Row.text, String.toList_append, String.toList_append, toList_zeroPadded,
    String.toList_intercalate, List.map_map, List.append_assoc]
  rfl

theorem isDigit_of_mem_wordDigits {v : Int} {c : Char} (h : c ∈ (Machine.wordDigits v).toList) :
    isDigit c = true := by
  obtain ⟨n, -, -, hdigits⟩ := exists_toList_wordDigits v
  rw [hdigits] at h
  exact isDigit_of_mem_padded h

theorem ne_of_isDigit {c d : Char} (hc : isDigit c = true) (hd : isDigit d = false) : c ≠ d := by
  rintro rfl
  rw [hc] at hd
  cases hd

/-- **A row is read as it was written.** -/
theorem row?_text {row : Row} (h : row.Proper) : row? row.text.toList = some row := by
  have hspace {c : Char} (hc : isDigit c = true) : (c == ' ') = false :=
    beq_eq_false_iff_ne.mpr (ne_of_isDigit hc (by decide))
  -- the second space begins an empty field, and after it there is one field for each word
  have hfields : Text.splitWhere (· == ' ') row.text.toList =
      Text.padLeft 8 '0' (Text.upperDigits 16 row.address) :: [] ::
        row.words.map fun v => (Machine.wordDigits v).toList := by
    rw [row.toList_text,
      Text.splitWhere_append_cons (fun c hc => hspace (isDigit_of_mem_padded hc)) rfl,
      ← List.nil_append (' ' :: List.intercalate _ _),
      Text.splitWhere_append_cons (List.forall_mem_nil _) rfl,
      Text.splitWhere_intercalate rfl]
    · exact fun hnil => h.1 (List.map_eq_nil_iff.mp hnil)
    · intro s hs c hc
      obtain ⟨v, -, rfl⟩ := List.mem_map.mp hs
      exact hspace (isDigit_of_mem_wordDigits hc)
  have hwords : (row.words.map fun v => (Machine.wordDigits v).toList).mapM word? =
      some row.words :=
    Assembly.mapM_map_eq_some fun v hv => word?_wordDigits (h.2 v hv)
  rw [row?, hfields]
  dsimp only
  rw [number?_padded, hwords]
  rfl

theorem Row.newline_notMem_text (row : Row) : '\n' ∉ row.text.toList := by
  have hdigit : ¬ isDigit '\n' = true := by decide
  rw [row.toList_text]
  intro hc
  rcases List.mem_append.mp hc with hc | hc
  · exact hdigit (isDigit_of_mem_padded hc)
  · rcases List.mem_cons.mp hc with hc | hc
    · exact absurd hc (by decide)
    rcases List.mem_cons.mp hc with hc | hc
    · exact absurd hc (by decide)
    rcases Text.mem_of_mem_intercalate hc with hc | ⟨s, hs, hc⟩
    · exact absurd hc (by decide)
    · obtain ⟨v, -, rfl⟩ := List.mem_map.mp hs
      exact hdigit (isDigit_of_mem_wordDigits hc)

/-- **A text of rows is read row by row.** -/
theorem read?_text {rows : List Row} (h : ∀ row ∈ rows, row.Proper) :
    read? ("\n".intercalate (rows.map Row.text)) = some rows := by
  have hlines : Assembly.lines ("\n".intercalate (rows.map Row.text)).toList =
      rows.map fun row => row.text.toList := by
    rw [String.toList_intercalate, List.map_map]
    refine Assembly.lines_intercalate fun line hline => ?_
    obtain ⟨row, -, rfl⟩ := List.mem_map.mp hline
    refine ⟨?_, row.newline_notMem_text⟩
    show row.text.toList ≠ []
    rw [row.toList_text]
    exact List.append_ne_nil_of_right_ne_nil _ (List.cons_ne_nil _ _)
  rw [read?, hlines]
  exact Assembly.mapM_map_eq_some fun row hrow => row?_text (h row hrow)

end Dump

/-! ### The rows of a dump -/

theorem Cells.range_add (c : Cells) (start n k : Nat) :
    c.range start (n + k) = c.range start n ++ c.range (start + n) k := by
  unfold Cells.range
  rw [List.range_add, List.map_append, List.map_map]
  refine congrArg _ (List.map_congr_left fun i _ => ?_)
  show c.get (start + (n + i)) = c.get (start + n + i)
  rw [Nat.add_assoc]

@[simp] theorem Cells.length_range (c : Cells) (start count : Nat) :
    (c.range start count).length = count := by
  simp [Cells.range]

namespace Dump

/-- The rows of `count` cells from `start` on. The last one has what the others leave. -/
def rowsOf (c : Cells) (start count : Nat) : List Row :=
  (List.range ((count + 3) / 4)).map fun i =>
    ⟨start + 4 * i, c.range (start + 4 * i) (min 4 (count - 4 * i))⟩

@[simp] theorem length_rowsOf (c : Cells) (start count : Nat) :
    (rowsOf c start count).length = (count + 3) / 4 := by
  simp [rowsOf]

/-- The first row, if there is one, takes up to four cells, and the others are the rows of the
rest. -/
theorem rowsOf_of_ne_zero (c : Cells) (start : Nat) {count : Nat} (h : count ≠ 0) :
    rowsOf c start count =
      ⟨start, c.range start (min 4 count)⟩ :: rowsOf c (start + 4) (count - 4) := by
  have hrows : (count + 3) / 4 = (count - 4 + 3) / 4 + 1 := by omega
  unfold rowsOf
  rw [hrows, List.range_succ_eq_map, List.map_cons, List.map_map]
  refine congrArg _ (List.map_congr_left fun i _ => ?_)
  have haddress : start + 4 * (i + 1) = start + 4 + 4 * i := by omega
  have hcount : count - 4 * (i + 1) = count - 4 - 4 * i := by omega
  show (⟨start + 4 * (i + 1), c.range (start + 4 * (i + 1)) (min 4 (count - 4 * (i + 1)))⟩ : Row) =
    _
  rw [haddress, hcount]

/-- **Nothing is lost and nothing is repeated.** The words of the first rows are the first cells, up
to the end of the last row. -/
theorem flatten_range_rows (c : Cells) (start count n : Nat) :
    ((List.range n).map fun i => c.range (start + 4 * i) (min 4 (count - 4 * i))).flatten =
      c.range start (min (4 * n) count) := by
  induction n with
  | zero => simp [Cells.range]
  | succ n ih =>
    rw [List.range_succ, List.map_append, List.flatten_append, ih, List.map_singleton,
      List.flatten_singleton]
    -- a row that begins inside the cells begins where the rows before it end
    by_cases hn : 4 * n ≤ count
    · have hsplit : min (4 * (n + 1)) count = 4 * n + min 4 (count - 4 * n) := by omega
      rw [Nat.min_eq_left hn, hsplit, Cells.range_add]
    · have hdone : min (4 * (n + 1)) count = min (4 * n) count := by omega
      have hempty : min 4 (count - 4 * n) = 0 := by omega
      rw [hdone, hempty]
      exact List.append_nil _

theorem flatMap_rowsOf (c : Cells) (start count : Nat) :
    (rowsOf c start count).flatMap Row.words = c.range start count := by
  have hall : min (4 * ((count + 3) / 4)) count = count := by omega
  rw [rowsOf, List.flatMap_map, List.flatMap_def, flatten_range_rows, hall]

theorem getElem?_rowsOf {c : Cells} {start count i : Nat} {row : Row}
    (h : (rowsOf c start count)[i]? = some row) :
    i < (count + 3) / 4 ∧ row.address = start + 4 * i ∧
      row.words = c.range (start + 4 * i) (min 4 (count - 4 * i)) := by
  unfold rowsOf at h
  rw [List.getElem?_map, Option.map_eq_some_iff] at h
  obtain ⟨j, hj, rfl⟩ := h
  obtain ⟨hlt, rfl⟩ := List.getElem?_eq_some_iff.mp hj
  rw [List.length_range] at hlt
  rw [List.getElem_range]
  exact ⟨hlt, rfl, rfl⟩

end Dump

namespace Machine.OfWords

variable {count : Nat} {m : Machine} (h : m.OfWords count false)
  (hlimit : (count : Int) ≤ sizeLimit)

include h

theorem inRange_range (start n : Nat) : ∀ v ∈ m.cells.range start n, Word.InRange v := by
  intro v hv
  obtain ⟨k, -, rfl⟩ := List.mem_map.mp hv
  exact h.words _

theorem proper_rowsOf (start n : Nat) : ∀ row ∈ Dump.rowsOf m.cells start n, row.Proper := by
  intro row hrow
  obtain ⟨i, hi⟩ := List.getElem?_of_mem hrow
  obtain ⟨hlt, -, hwords⟩ := Dump.getElem?_rowsOf hi
  refine ⟨List.ne_nil_of_length_pos ?_, hwords ▸ h.inRange_range _ _⟩
  rw [hwords, Cells.length_range]
  omega

include hlimit

/-- Cells of the block are read one after the other. -/
theorem readCells_eq {i n : Nat} (hi : i + n ≤ count) :
    readCells i n m = .ok (m.cells.range i n) m := by
  induction n generalizing i with
  | zero => rfl
  | succ n ih =>
    have hfirst : readCell i m = .ok (m.cells.get i) m := h.readCell_eq hlimit (by omega)
    have hrest : readCells ((i : Int) + 1) n m =
        .ok (m.cells.range (i + 1) n) m := ih (i := i + 1) (by omega)
    rw [Cells.range_succ]
    show (do let v ← readCell i; return v :: (← readCells ((i : Int) + 1) n)) m = _
    rw [bind_apply, hfirst]
    dsimp only
    rw [bind_apply, hrest]
    rfl

theorem dumpRow_eq {start n : Nat} (hend : start + n ≤ count) :
    dumpRow start n m =
      .ok (Dump.Row.text ⟨start, m.cells.range start n⟩) m := by
  unfold dumpRow
  rw [bind_apply, h.readCells_eq hlimit hend]
  rfl

/-- **The rows of a dump** are those of the cells it was asked for, and the machine is left as it
was. -/
theorem dumpRows_eq {start n : Nat} (hend : start + n ≤ count) :
    dumpRows start n m = .ok ((Dump.rowsOf m.cells start n).map Dump.Row.text) m := by
  -- along the recursion, which takes a row off the count
  induction n using Nat.strongRecOn generalizing start with
  | ind n ih =>
    rw [dumpRows]
    split
    · next hn =>
      subst hn
      rfl
    · next hn =>
      have hrow : dumpRow start (min 4 n) m =
          .ok (Dump.Row.text ⟨start, m.cells.range start (min 4 n)⟩) m :=
        h.dumpRow_eq hlimit (by omega)
      rw [bind_apply, hrow]
      dsimp only
      rw [bind_apply, Dump.rowsOf_of_ne_zero _ _ hn]
      by_cases hlast : n ≤ 4
      · have hzero : n - 4 = 0 := by omega
        rw [hzero, dumpRows]
        rfl
      · have hrest : dumpRows ((start : Int) + 4) (n - 4) m =
            .ok ((Dump.rowsOf m.cells (start + 4) (n - 4)).map Dump.Row.text) m :=
          @ih (n - 4) (by omega) (start + 4) (by omega)
        rw [hrest]
        rfl

theorem hexdump_eq {start n : Nat} (hend : start + n ≤ count) :
    hexdump start n m =
      .ok ("\n".intercalate ((Dump.rowsOf m.cells start n).map Dump.Row.text)) m := by
  unfold hexdump
  rw [Int.toNat_natCast, bind_apply, h.dumpRows_eq hlimit hend]
  rfl

end Machine.OfWords

open Machine

/-- The rows show `count` cells from `start` on, four a row. -/
structure Dump.Shows (m : Machine) (start count : Nat) (rows : List Dump.Row) : Prop where
  /-- There is a row for every four cells that have begun. -/
  rowCount : rows.length = (count + 3) / 4
  address : ∀ i row, rows[i]? = some row → row.address = start + 4 * i
  /-- Only the last row may be short. -/
  full : ∀ i row, rows[i]? = some row → i + 1 < rows.length → row.words.length = 4
  wordCount : (rows.flatMap Dump.Row.words).length = count
  /-- The words one after the other are the cells one after the other. -/
  cells : ∀ (k : Nat) (v : Int), (rows.flatMap Dump.Row.words)[k]? = some v →
    readCell (start + k : Nat) m = .ok v m

theorem Machine.OfWords.shows_rowsOf {count : Nat} {m : Machine} (h : m.OfWords count false)
    (hlimit : (count : Int) ≤ sizeLimit) {start n : Nat} (hend : start + n ≤ count) :
    Dump.Shows m start n (Dump.rowsOf m.cells start n) where
  rowCount := Dump.length_rowsOf m.cells start n
  address i row hrow := (Dump.getElem?_rowsOf hrow).2.1
  full i row hrow hi := by
    obtain ⟨-, -, hwords⟩ := Dump.getElem?_rowsOf hrow
    rw [Dump.length_rowsOf] at hi
    rw [hwords, Cells.length_range]
    omega
  wordCount := by rw [Dump.flatMap_rowsOf, Cells.length_range]
  cells k v hv := by
    rw [Dump.flatMap_rowsOf] at hv
    obtain ⟨hk, rfl⟩ := List.getElem?_eq_some_iff.mp hv
    rw [Cells.length_range] at hk
    rw [h.readCell_eq hlimit (by omega), Int.toNat_natCast]
    simp [Cells.range]

/-- **A dump loses and repeats nothing.** The memory was created with some size, and whatever has
happened to it since, the block is held. Any part of the block can be dumped, which leaves the
memory as it is. Read back, the text gives a row for every four cells that have begun, the rows have
the indices of the cells they begin with, all but the last have four words, and the words of all
rows, taken as signed 32-bit numbers, are the cells of the part in order. -/
theorem hexdump_reads_back {size : Int} {checked : Bool} {created m : Machine}
    (hcreate : Machine.create size checked = .ok created) {events : List MemoryEvent}
    (hevents : created.afterEvents events = m) (hheld : m.released = false)
    {start count : Nat} (hend : start + count ≤ m.cellCount) :
    ∃ text rows, hexdump start count m = .ok text m ∧ Dump.read? text = some rows ∧
      Dump.Shows m start count rows := by
  obtain ⟨hnew, hlimit⟩ := ofWords_create hcreate
  obtain ⟨released, h, -⟩ := ofWords_afterEvents hnew events
  rw [hevents] at h
  obtain rfl : released = false := h.released.symm.trans hheld
  rw [h.count] at hend
  exact ⟨_, _, h.hexdump_eq hlimit hend, Dump.read?_text (h.proper_rowsOf start count),
    h.shows_rowsOf hlimit hend⟩

/-- A block of six cells, three of which have been written. -/
def sixCells : Machine :=
  afterEvents { cellCount := 6, checked := false }
    [.access (.write 1 (-2)), .access (.write 4 5), .access (.write 5 7)]

/-- Five of the cells are read back from two rows, the first of which has a negative word. -/
theorem sixCells_read_back :
    ∃ text, hexdump 1 5 sixCells = .ok text sixCells ∧
      Dump.read? text = some [⟨1, [-2, 0, 0, 5]⟩, ⟨5, [7]⟩] ∧
      Dump.Shows sixCells 1 5 [⟨1, [-2, 0, 0, 5]⟩, ⟨5, [7]⟩] := by
  have hcreate : Machine.create 24 false = .ok { cellCount := 6, checked := false } := rfl
  obtain ⟨text, rows, htext, hread, hshows⟩ :=
    hexdump_reads_back hcreate (rfl : _ = sixCells) rfl (by decide : 1 + 5 ≤ 6)
  have hdump : hexdump 1 5 sixCells =
      .ok "00000001  FFFFFFFE 00000000 00000000 00000005\n00000005  00000007" sixCells := by
    -- two rows, and then no cells are left
    rw [hexdump, dumpRows, dumpRows, dumpRows]
    rfl
  obtain ⟨rfl, -⟩ := EStateM.Result.ok.inj (htext.symm.trans hdump)
  obtain rfl : rows = [⟨1, [-2, 0, 0, 5]⟩, ⟨5, [7]⟩] :=
    Option.some.inj (hread.symm.trans (by decide +kernel))
  exact ⟨_, htext, hread, hshows⟩

end CellMachine
