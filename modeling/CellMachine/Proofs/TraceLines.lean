import CellMachine.Proofs.Literals
import CellMachine.Run

/-!
# Lines of a trace read back

A line of a trace tells where a program is and what its registers hold. Here it is read by a
function of its own (`TraceLine.read?`), which knows how a line is laid out and nothing of how it is
made. The index stands before the first colon. The registers stand after the last bar, each with its
name before an equals sign, and a value after an at sign is an address.

* `TraceLine.number?_filled` is about a number, with the zeros that fill its column.
* `TraceLine.value?_text` is about a value and `TraceLine.field?_text` about a register.
* `TraceLine.read?_traceLine` is about a line. It holds of every instruction, so nothing that stands
  between colon and bar can be mistaken for an index or a register.
-/

namespace CellMachine

namespace TraceLine

/-! ### The reader -/

/-- The number that some digits write. -/
def digits? (digits : List Char) : Option Nat :=
  if !digits.isEmpty && digits.all Char.isDigit then some (Text.numberOf 10 digits) else none

/-- The number that some digits write, with a minus before them if it is negative. -/
def number? : List Char → Option Int
  | '-' :: digits => (digits? digits).map fun n : Nat => -(n : Int)
  | digits => (digits? digits).map fun n : Nat => (n : Int)

/-- The value that a number stands for. After an at sign it is an address. -/
def value? : List Char → Option Value
  | '@' :: chars => (number? chars).map .address
  | chars => (number? chars).map .int

/-- A register is its name, an equals sign and its value. -/
def field? (chars : List Char) : Option (List Char × Value) :=
  match Text.splitWhere (· == '=') chars with
  | [name, value] => (value? value).map fun v => (name, v)
  | _ => none

/-- The names under which the registers stand, in order. -/
def names : List (List Char) := Slot.displayNames.toList.map String.toList

/-- A register file has all registers, each in its place. -/
def registers? (fields : List (List Char × Value)) : Option RegisterFile :=
  if h : fields.map Prod.fst = names ∧ (fields.map Prod.snd).toArray.size = slotCount then
    some ⟨⟨(fields.map Prod.snd).toArray, h.2⟩⟩
  else none

/-- What is read from a line. -/
structure Entry where
  index : Int
  registers : RegisterFile
  deriving DecidableEq, Repr

/-- What stands before the first colon. -/
def head? (line : List Char) : Option (List Char) := (Text.splitWhere (· == ':') line).head?

/-- What stands after the last bar and the space that follows it. -/
def tail? (line : List Char) : Option (List Char) :=
  (Text.splitWhere (· == '|') line).getLast?.map (·.drop 1)

def read? (line : String) : Option Entry := do
  let index ← number? (← head? line.toList)
  let fields ← (Text.splitWhere (· == ' ') (← tail? line.toList)).mapM field?
  return ⟨index, ← registers? fields⟩

/-! ### Numbers -/

/-- A number in a column: its sign, some zeros and its digits. -/
def filled (zeros : Nat) (v : Int) : List Char :=
  (if v < 0 then ['-'] else []) ++ (List.replicate zeros '0' ++ Nat.toDigits 10 v.natAbs)

/-- Only a minus and digits are written for a number. -/
theorem mem_filled {zeros : Nat} {v : Int} {c : Char} (h : c ∈ filled zeros v) :
    c = '-' ∨ c.isDigit = true := by
  rcases List.mem_append.mp h with h | h
  · split at h
    · exact Or.inl (List.mem_singleton.mp h)
    · cases h
  · rcases List.mem_append.mp h with h | h
    · rw [List.eq_of_mem_replicate h]
      exact Or.inr rfl
    · exact Or.inr (Assembly.isDigit_of_mem_toDigits h)

/-- So a character that is neither is not written. -/
theorem ne_of_mem_filled {zeros : Nat} {v : Int} {c d : Char} (h : c ∈ filled zeros v)
    (hminus : d ≠ '-') (hdigit : d.isDigit = false) : c ≠ d := by
  rintro rfl
  rcases mem_filled h with rfl | hc
  · exact hminus rfl
  · rw [hc] at hdigit
    cases hdigit

/-- Digits are read as the number they are of, with or without zeros before them. -/
theorem digits?_replicate_append (zeros n : Nat) :
    digits? (List.replicate zeros '0' ++ Nat.toDigits 10 n) = some n := by
  have hfull : (List.replicate zeros '0' ++ Nat.toDigits 10 n).isEmpty = false := by
    rw [List.isEmpty_eq_false_iff]
    exact List.append_ne_nil_of_right_ne_nil _ Nat.toDigits_ne_nil
  have hall : (List.replicate zeros '0' ++ Nat.toDigits 10 n).all Char.isDigit = true := by
    refine List.all_eq_true.mpr fun c hc => ?_
    rcases List.mem_append.mp hc with hc | hc
    · rw [List.eq_of_mem_replicate hc]
      rfl
    · exact Assembly.isDigit_of_mem_toDigits hc
  rw [digits?, hfull, hall, Text.numberOf_replicate_append (by decide),
    Assembly.numberOf_toDigits]
  rfl

/-- **A number is read as it was written.** -/
theorem number?_filled (zeros : Nat) (v : Int) : number? (filled zeros v) = some v := by
  unfold filled
  split
  · -- the sign is read first, and what is left is the amount
    show (digits? (List.replicate zeros '0' ++ Nat.toDigits 10 v.natAbs)).map
      (fun n : Nat => -(n : Int)) = some v
    rw [digits?_replicate_append, Option.map_some]
    exact congrArg some (by omega)
  · have hread : number? (List.replicate zeros '0' ++ Nat.toDigits 10 v.natAbs) =
        (digits? (List.replicate zeros '0' ++ Nat.toDigits 10 v.natAbs)).map
          fun n : Nat => (n : Int) := by
      unfold number?
      split
      · next digits heq =>
        -- neither a zero nor a digit is a minus
        have hmem : '-' ∈ List.replicate zeros '0' ++ Nat.toDigits 10 v.natAbs :=
          heq ▸ List.mem_cons_self
        rcases List.mem_append.mp hmem with hmem | hmem
        · exact absurd (List.eq_of_mem_replicate hmem) (by decide)
        · exact absurd (Assembly.isDigit_of_mem_toDigits hmem) (by decide)
      · rfl
    rw [List.nil_append, hread, digits?_replicate_append, Option.map_some]
    exact congrArg some (by omega)

/-- The usual text of a number has no zeros before its digits. -/
theorem toList_toString_eq_filled (v : Int) : (toString v).toList = filled 0 v := by
  rw [Assembly.toList_toString, filled, List.replicate_zero, List.nil_append]
  by_cases hv : 0 ≤ v
  · have habs : v.toNat = v.natAbs := by omega
    rw [if_pos hv, if_neg (by omega), habs, List.nil_append]
  · have habs : (-v).toNat = v.natAbs := by omega
    rw [if_neg hv, if_pos (by omega), habs, List.singleton_append]

/-- Digits in base 10 have no letters that could be in upper case. -/
theorem upperDigits_ten (n : Nat) : Text.upperDigits 10 n = Nat.toDigits 10 n := by
  obtain ⟨ds, hds, hlt, -⟩ := Assembly.exists_digits (by decide : 1 < 10) n
  have hdigit : ∀ d < 10, (Nat.digitChar d).toUpper = Nat.digitChar d := by decide
  rw [Text.upperDigits, hds, List.map_map]
  exact List.map_congr_left fun d hd => hdigit d (hlt d hd)

/-- A number in a column has zeros between its sign and its digits. -/
theorem exists_zeroPadded_eq_filled (width : Nat) (v : Int) :
    ∃ zeros, (Text.zeroPadded 10 width v).toList = filled zeros v := by
  unfold Text.zeroPadded filled
  by_cases hv : v < 0
  · refine ⟨width - 1 - (Nat.toDigits 10 v.natAbs).length, ?_⟩
    rw [if_pos hv, if_pos hv, String.toList_ofList, Text.padLeft, upperDigits_ten]
    rfl
  · refine ⟨width - (Nat.toDigits 10 v.natAbs).length, ?_⟩
    rw [if_neg hv, if_neg hv, String.toList_ofList, Text.padLeft, upperDigits_ten]
    rfl

/-! ### Registers -/

theorem toList_text_int (n : Int) : (Value.int n).text.toList = filled 0 n :=
  toList_toString_eq_filled n

/-- An address has an at sign before its number. -/
theorem toList_text_address (cell : Int) :
    (Value.address cell).text.toList = '@' :: filled 0 cell := by
  rw [Value.text, String.toList_append, toList_toString_eq_filled]
  rfl

/-- **A value is read as it was written.** No number starts with an at sign. -/
theorem value?_text (v : Value) : value? v.text.toList = some v := by
  cases v with
  | address cell =>
    rw [toList_text_address]
    show (number? _).map _ = _
    rw [number?_filled]
    rfl
  | int n =>
    have hread : value? (filled 0 n) = (number? (filled 0 n)).map .int := by
      unfold value?
      split
      · next chars heq =>
        have hmem : '@' ∈ filled 0 n := heq ▸ List.mem_cons_self
        exact absurd rfl (ne_of_mem_filled hmem (by decide) rfl)
      · rfl
    rw [toList_text_int, hread, number?_filled]
    rfl

/-- The characters of a value are none of those that divide a line. -/
theorem ne_of_mem_text {v : Value} {c d : Char} (h : c ∈ v.text.toList) (hat : d ≠ '@')
    (hminus : d ≠ '-') (hdigit : d.isDigit = false) : c ≠ d := by
  cases v with
  | int n =>
    rw [toList_text_int] at h
    exact ne_of_mem_filled h hminus hdigit
  | address cell =>
    rw [toList_text_address] at h
    rcases List.mem_cons.mp h with rfl | h
    · exact hat.symm
    · exact ne_of_mem_filled h hminus hdigit

/-- The names of the registers have none of the characters that divide a line either. -/
theorem names_free : ∀ name ∈ names, ∀ c ∈ name, c ≠ '=' ∧ c ≠ ' ' ∧ c ≠ '|' := by
  have hfree : names.all (fun name => name.all fun c => c != '=' && c != ' ' && c != '|') = true :=
    by decide +kernel
  intro name hname c hc
  have hchar := List.all_eq_true.mp (List.all_eq_true.mp hfree name hname) c hc
  simpa [and_assoc] using hchar

/-- A register with its value, as it is written. -/
def fieldChars (name : List Char) (v : Value) : List Char := name ++ '=' :: v.text.toList

/-- **A register is read as it was written.** -/
theorem field?_fieldChars {name : List Char} (h : name ∈ names) (v : Value) :
    field? (fieldChars name v) = some (name, v) := by
  -- the only equals sign is the one between them
  have hname : ∀ c ∈ name, (c == '=') = false := fun c hc =>
    beq_eq_false_iff_ne.mpr (names_free name h c hc).1
  have hvalue : ∀ c ∈ v.text.toList, (c == '=') = false := fun c hc =>
    beq_eq_false_iff_ne.mpr (ne_of_mem_text hc (by decide) (by decide) rfl)
  rw [field?, fieldChars, Text.splitWhere_append_cons hname rfl, Text.splitWhere_of_free hvalue]
  show (value? v.text.toList).map _ = _
  rw [value?_text]
  rfl

/-- The registers with their names. -/
def fieldsOf (r : RegisterFile) : List (List Char × Value) := names.zip r.slots.toList

/-- There is a name for every register. -/
theorem length_names (r : RegisterFile) : names.length = r.slots.toList.length := by
  rw [Vector.length_toList]
  rfl

theorem mem_names_of_mem_fieldsOf {r : RegisterFile} {field : List Char × Value}
    (h : field ∈ fieldsOf r) : field.1 ∈ names :=
  (List.of_mem_zip h).1

/-- The registers, one after the other and with spaces between them. -/
theorem toList_display (r : RegisterFile) :
    r.display.toList = [' '].intercalate ((fieldsOf r).map fun f => fieldChars f.1 f.2) := by
  have hfield (f : String × Value) :
      (f.1 ++ "=" ++ f.2.text).toList = fieldChars f.1.toList f.2 := by
    rw [String.toList_append, String.toList_append, List.append_assoc]
    rfl
  rw [RegisterFile.display, String.toList_intercalate, List.map_map, fieldsOf, names,
    List.zip_map_left, List.map_map]
  exact congrArg _ (List.map_congr_left fun f _ => hfield f)

/-- Neither a space nor a bar is written for a register. -/
theorem ne_of_mem_fieldChars {name : List Char} (h : name ∈ names) {v : Value} {c : Char}
    (hc : c ∈ fieldChars name v) : c ≠ ' ' ∧ c ≠ '|' := by
  rcases List.mem_append.mp hc with hc | hc
  · exact (names_free name h c hc).2
  · rcases List.mem_cons.mp hc with rfl | hc
    · decide
    · exact ⟨ne_of_mem_text hc (by decide) (by decide) rfl,
        ne_of_mem_text hc (by decide) (by decide) rfl⟩

/-- All registers are read as they were written. -/
theorem mapM_field?_display (r : RegisterFile) :
    (Text.splitWhere (· == ' ') r.display.toList).mapM field? = some (fieldsOf r) := by
  have hsplit : Text.splitWhere (· == ' ') r.display.toList =
      (fieldsOf r).map fun f => fieldChars f.1 f.2 := by
    rw [toList_display]
    refine Text.splitWhere_intercalate rfl ?_ fun chars hchars c hc => ?_
    · -- there is at least one register
      refine List.ne_nil_of_length_pos ?_
      rw [List.length_map, fieldsOf, List.length_zip, ← length_names, Nat.min_self]
      decide
    · obtain ⟨f, hf, rfl⟩ := List.mem_map.mp hchars
      exact beq_eq_false_iff_ne.mpr
        (ne_of_mem_fieldChars (mem_names_of_mem_fieldsOf hf) hc).1
  rw [hsplit]
  exact Assembly.mapM_map_eq_some fun f hf => field?_fieldChars (mem_names_of_mem_fieldsOf hf) f.2

/-- All fields in their places make up the registers. -/
theorem registers?_fieldsOf (r : RegisterFile) : registers? (fieldsOf r) = some r := by
  have hlength := length_names r
  have hnames : (fieldsOf r).map Prod.fst = names := List.map_fst_zip (Nat.le_of_eq hlength)
  have hvalues : (fieldsOf r).map Prod.snd = r.slots.toList :=
    List.map_snd_zip (Nat.le_of_eq hlength.symm)
  have hsize : ((fieldsOf r).map Prod.snd).toArray.size = slotCount := by
    rw [hvalues, List.size_toArray, Vector.length_toList]
  rw [registers?, dif_pos ⟨hnames, hsize⟩]
  -- the names were only looked at, and the values are the registers
  refine congrArg some (congrArg RegisterFile.mk (Vector.toArray_inj.mp ?_))
  show ((fieldsOf r).map Prod.snd).toArray = r.slots.toArray
  rw [hvalues]
  rfl

/-- No bar is written for the registers, so the last bar of a line stands before them. -/
theorem bar_notMem_display (r : RegisterFile) : '|' ∉ r.display.toList := by
  rw [toList_display]
  intro hbar
  rcases Text.mem_of_mem_intercalate hbar with hbar | ⟨chars, hchars, hbar⟩
  · exact absurd hbar (by decide)
  · obtain ⟨f, hf, rfl⟩ := List.mem_map.mp hchars
    exact (ne_of_mem_fieldChars (mem_names_of_mem_fieldsOf hf) hbar).2 rfl

/-! ### Lines -/

/-- What stands before the first colon of a line is its index. -/
theorem head?_traceLine (index : Int) (ins : Instruction) (registers : RegisterFile) :
    ∃ zeros, head? (Monitor.traceLine index ins registers).toList = some (filled zeros index) := by
  obtain ⟨zeros, hzeros⟩ := exists_zeroPadded_eq_filled 4 index
  refine ⟨zeros, ?_⟩
  have hfree : ∀ c ∈ filled zeros index, (c == ':') = false := fun c hc =>
    beq_eq_false_iff_ne.mpr (ne_of_mem_filled hc (by decide) rfl)
  simp only [Monitor.traceLine, String.toList_append, hzeros, List.append_assoc]
  -- what comes after the colon does not matter
  exact congrArg List.head? (Text.splitWhere_append_cons hfree rfl _)

/-- What stands after the last bar of a line are its registers. -/
theorem tail?_traceLine (index : Int) (ins : Instruction) (registers : RegisterFile) :
    tail? (Monitor.traceLine index ins registers).toList = some registers.display.toList := by
  have hfree : ∀ c ∈ ' ' :: registers.display.toList, (c == '|') = false := by
    rintro c (_ | ⟨_, hc⟩)
    · rfl
    · refine beq_eq_false_iff_ne.mpr ?_
      rintro rfl
      exact bar_notMem_display registers hc
  -- bars in the instruction, if there are any, come before this one
  have hline : (Monitor.traceLine index ins registers).toList =
      ((Text.zeroPadded 10 4 index ++ ": " ++ Text.padRight 24 ins.text).toList ++ [' ']) ++
        '|' :: ' ' :: registers.display.toList := by
    simp only [Monitor.traceLine, String.toList_append, List.append_assoc]
    rfl
  rw [tail?, hline, Text.splitWhere_append_cut rfl, Text.splitWhere_of_free hfree,
    List.getLast?_concat]
  rfl

/-- **A line is read as it was written**, whatever the instruction is. -/
theorem read?_traceLine (index : Int) (ins : Instruction) (registers : RegisterFile) :
    read? (Monitor.traceLine index ins registers) = some ⟨index, registers⟩ := by
  obtain ⟨zeros, hhead⟩ := head?_traceLine index ins registers
  simp only [read?, hhead, tail?_traceLine, Option.bind_eq_bind, Option.bind_some, number?_filled,
    mapM_field?_display, registers?_fieldsOf]
  rfl

end TraceLine

end CellMachine
