import CellMachine.Proofs.Labels

/-!
# References to labels

An operand that names a label is read as a register, a cell or a number before it is read as a
label, and the names of labels are not kept apart from the notations of numbers. Registers and cells
need no care: a name is no cell, and which names are registers is known. Numbers do. A name begins
with a letter or a sign of its own, so base 10, base 2 and the mark `0x` are out of the question, but
`h` is an ending of base 16 and six letters are its digits: `ah` is a name, and it is the number ten.

* `numeralOf?` is the number that a name is read as. It is said by the form of the name alone, and
  the bound on the length is all that is left of the range of a word
  (`readValue_eq_ok_iff_of_isLabelName`): a name begins with a digit of at least ten, so that seven
  digits fit into a word and eight never do.
* `OperandAt` is an operand as it is written, by the tokens of its line.
* `reference_means_label_iff` is what an operand with the name of a label becomes. It is the index of
  the label unless the name is a number as well, and then it is that number.
-/

namespace CellMachine

namespace Text

/-! ### The size of a number -/

variable {radix : Nat}

theorem digitValue?_lt {c : Char} {d : Nat} (h : digitValue? radix c = some d) : d < radix :=
  of_decide_eq_true (Option.filter_eq_some_iff.mp h).2

/-- Digits after a number move it up by their count. -/
theorem foldl_digits (digits : List Char) (n : Nat) :
    digits.foldl (fun n c => n * radix + (digitValue? radix c).getD 0) n =
      n * Nat.pow radix digits.length + numberOf radix digits := by
  induction digits generalizing n with
  | nil =>
    show n = n * 1 + 0
    omega
  | cons c digits ih =>
    -- the digits are folded from the left, so both sides have the first digit in the number
    show digits.foldl _ (n * radix + (digitValue? radix c).getD 0) =
      n * (Nat.pow radix digits.length * radix) +
        digits.foldl _ (0 * radix + (digitValue? radix c).getD 0)
    rw [ih, ih, Nat.add_mul, Nat.zero_mul, Nat.zero_add, Nat.mul_assoc, Nat.mul_comm radix,
      Nat.add_assoc]

/-- A number is its first digit, at its place, and the number of the other digits. -/
theorem numberOf_cons {c : Char} {d : Nat} (hd : digitValue? radix c = some d)
    (digits : List Char) :
    numberOf radix (c :: digits) =
      d * Nat.pow radix digits.length + numberOf radix digits := by
  rw [numberOf, List.foldl_cons, foldl_digits, hd, Option.getD_some, Nat.zero_mul, Nat.zero_add]

/-- Filling zeros do not change a number. -/
theorem numberOf_replicate_append (hradix : 0 < radix) (zeros : Nat) (digits : List Char) :
    numberOf radix (List.replicate zeros '0' ++ digits) = numberOf radix digits := by
  have hzero : digitValue? radix '0' = some 0 := by
    simp [digitValue?, hradix]
  induction zeros with
  | zero => rfl
  | succ zeros ih =>
    rw [List.replicate_succ, List.cons_append, numberOf_cons hzero, ih, Nat.zero_mul, Nat.zero_add]

/-- A number has its digits at the places below their count. -/
theorem numberOf_lt {digits : List Char} (h : digits.all (isDigit radix) = true) :
    numberOf radix digits < Nat.pow radix digits.length := by
  induction digits with
  | nil => exact Nat.one_pos
  | cons c digits ih =>
    rw [List.all_cons, Bool.and_eq_true] at h
    obtain ⟨d, hd⟩ := Option.isSome_iff_exists.mp h.1
    calc numberOf radix (c :: digits)
        = d * Nat.pow radix digits.length + numberOf radix digits := numberOf_cons hd digits
      _ < d * Nat.pow radix digits.length + Nat.pow radix digits.length :=
          Nat.add_lt_add_left (ih h.2) _
      _ = (d + 1) * Nat.pow radix digits.length := (Nat.succ_mul d _).symm
      _ ≤ radix * Nat.pow radix digits.length := Nat.mul_le_mul_right _ (digitValue?_lt hd)
      _ = Nat.pow radix (c :: digits).length := Nat.mul_comm radix _

end Text

namespace Assembly

/-! ### Names that are numbers -/

/-- The number that a name is read as: one of up to seven digits in base 16, with the ending `h`. -/
def numeralOf? (name : String) : Option Int :=
  match name.toList.reverse with
  | 'h' :: digits =>
    if digits ≠ [] ∧ digits.all (Text.isDigit 16) = true ∧ digits.length ≤ 7 then
      some (Text.numberOf 16 digits.reverse)
    else none
  | _ => none

/-- The characters of a name. -/
theorem isLabelName_iff {name : String} :
    isLabelName name = true ↔
      ∃ c rest, name.toList = c :: rest ∧ isLabelStart c = true ∧ rest.all isLabelChar = true := by
  unfold isLabelName
  cases name.toList with
  | nil => simp
  | cons c rest => simp

theorem isLabelChar_of_mem {name : String} (h : isLabelName name = true) {c : Char}
    (hc : c ∈ name.toList) : isLabelChar c = true := by
  obtain ⟨d, rest, hname, hd, hrest⟩ := isLabelName_iff.mp h
  rw [hname] at hc
  rcases List.mem_cons.mp hc with rfl | hc
  · rw [isLabelChar, hd, Bool.true_or]
  · exact List.all_eq_true.mp hrest c hc

section Letter

variable {c : Char} {rest : List Char} {radix : Nat}

theorem ne_of_isLabelStart (hc : isLabelStart c = true) {d : Char} (hd : isLabelStart d = false) :
    c ≠ d := by
  rintro rfl
  rw [hc] at hd
  cases hd

/-- What begins a name is worth at least ten as a digit. -/
theorem ten_le_digitValue? (hc : isLabelStart c = true) {d : Nat}
    (hd : Text.digitValue? radix c = some d) : 10 ≤ d := by
  -- the decimal digits lie apart from all that begins a name
  have hdecimal : ¬ ('0' ≤ c ∧ c ≤ '9') := by
    rintro ⟨hlow, hhigh⟩
    have h48 : 48 ≤ c.toNat := hlow
    have h57 : c.toNat ≤ 57 := hhigh
    simp only [isLabelStart, Bool.or_eq_true, beq_iff_eq, Bool.and_eq_true, decide_eq_true_iff]
      at hc
    rcases hc with (((rfl | rfl) | rfl) | ⟨h65, -⟩) | ⟨h97, -⟩
    · revert h48; decide
    · revert h57; decide
    · revert h57; decide
    · have : 65 ≤ c.toNat := h65
      omega
    · have : 97 ≤ c.toNat := h97
      omega
  obtain ⟨hvalue, -⟩ := Option.filter_eq_some_iff.mp hd
  rw [if_neg hdecimal] at hvalue
  split at hvalue
  · obtain rfl := Option.some.inj hvalue
    exact Nat.le_add_left 10 _
  · split at hvalue
    · obtain rfl := Option.some.inj hvalue
      exact Nat.le_add_left 10 _
    · cases hvalue

theorem splitSign_of_isLabelStart (hc : isLabelStart c = true) :
    Text.splitSign (c :: rest) = (false, c :: rest) := by
  unfold Text.splitSign
  split
  · next heq => exact absurd (List.cons.inj heq).1 (ne_of_isLabelStart hc rfl)
  · next heq => exact absurd (List.cons.inj heq).1 (ne_of_isLabelStart hc rfl)
  · rfl

/-- A name has no sign, so it is a number if all its characters are digits. -/
theorem readSigned_eq_ok_iff_of_isLabelStart (hc : isLabelStart c = true) (hradix : radix ≠ 10)
    {v : Int} :
    readSigned radix (c :: rest) = .ok v ↔
      (c :: rest).all (Text.isDigit radix) = true ∧ (Text.numberOf radix (c :: rest) : Int) = v := by
  unfold readSigned
  rw [splitSign_of_isLabelStart hc]
  by_cases hdigits : (c :: rest).all (Text.isDigit radix) = true
  · simp [hdigits, hradix]
  · simp [hdigits]

/-- In a base up to ten a name is no number. -/
theorem readSigned_ne_ok_of_isLabelStart (hc : isLabelStart c = true) (hradix : radix ≤ 10)
    (v : Int) : readSigned radix (c :: rest) ≠ .ok v := by
  have hdigit : Text.isDigit radix c = false := by
    rw [Text.isDigit, Option.isSome_eq_false_iff, Option.isNone_iff_eq_none,
      Option.eq_none_iff_forall_not_mem]
    intro d hd
    have hten := ten_le_digitValue? hc hd
    have hlt := Text.digitValue?_lt hd
    omega
  unfold readSigned
  rw [splitSign_of_isLabelStart hc]
  simp [hdigit]

/-- In base 16 the range of a word is a matter of the number of digits. -/
theorem inRange_numberOf_iff (hc : isLabelStart c = true)
    (hdigits : (c :: rest).all (Text.isDigit 16) = true) :
    Word.InRange (Text.numberOf 16 (c :: rest)) ↔ (c :: rest).length ≤ 7 := by
  have hhigh := Text.numberOf_lt hdigits
  rw [List.all_cons, Bool.and_eq_true] at hdigits
  obtain ⟨d, hd⟩ := Option.isSome_iff_exists.mp hdigits.1
  have hlow : d * Nat.pow 16 rest.length ≤ Text.numberOf 16 (c :: rest) := by
    rw [Text.numberOf_cons hd]
    exact Nat.le_add_right _ _
  unfold Word.InRange Word.minimum Word.maximum
  generalize Text.numberOf 16 (c :: rest) = n at hlow hhigh
  by_cases hlength : (c :: rest).length ≤ 7
  · -- seven digits stay below 16 ^ 7
    have hn : n < 268435456 :=
      calc n < Nat.pow 16 (c :: rest).length := hhigh
        _ ≤ Nat.pow 16 7 := Nat.pow_le_pow_right (by decide) hlength
    omega
  · -- with an eighth digit the first one, at ten or more, stands for more than any word
    have hplace : 7 ≤ rest.length := Nat.le_of_lt_succ (Nat.lt_of_not_le hlength)
    have hn : 10 * 268435456 ≤ n :=
      calc 10 * Nat.pow 16 7
          ≤ d * Nat.pow 16 rest.length :=
            Nat.mul_le_mul (ten_le_digitValue? hc hd) (Nat.pow_le_pow_right (by decide) hplace)
        _ ≤ n := hlow
    omega

end Letter

/-- The ending `h` leaves the digits before it. -/
theorem numeralOf?_eq_some_iff {name : String} {v : Int} :
    numeralOf? name = some v ↔
      ∃ digits, name.toList = digits ++ ['h'] ∧ digits ≠ [] ∧
        digits.all (Text.isDigit 16) = true ∧ digits.length ≤ 7 ∧
        (Text.numberOf 16 digits : Int) = v := by
  unfold numeralOf?
  constructor
  · intro h
    split at h
    · next digits hname =>
      split at h
      · next hdigits =>
        refine ⟨digits.reverse, ?_, ?_, ?_, ?_, Option.some.inj h⟩
        · exact List.reverse_eq_cons_iff.mp hname
        · exact fun hnil => hdigits.1 (List.reverse_eq_nil_iff.mp hnil)
        · rw [List.all_reverse]
          exact hdigits.2.1
        · rw [List.length_reverse]
          exact hdigits.2.2
      · cases h
    · cases h
  · rintro ⟨digits, hname, hne, hall, hlength, rfl⟩
    rw [hname, List.reverse_concat]
    have hne' : digits.reverse ≠ [] := fun hnil => hne (List.reverse_eq_nil_iff.mp hnil)
    simp [hne', hall, hlength]

/-- Before its last character a name is empty, or it begins as a name does. -/
theorem eq_nil_or_isLabelStart {name : String} (h : isLabelName name = true) {front : List Char}
    {ending : Char} (hname : name.toList = front ++ [ending]) :
    front = [] ∨ ∃ c rest, front = c :: rest ∧ isLabelStart c = true := by
  obtain ⟨c, rest, hchars, hc, -⟩ := isLabelName_iff.mp h
  cases front with
  | nil => exact Or.inl rfl
  | cons d front =>
    rw [hname, List.cons_append] at hchars
    obtain ⟨rfl, -⟩ := List.cons.inj hchars
    exact Or.inr ⟨d, front, rfl, hc⟩

theorem readSigned_nil_ne_ok (radix : Nat) (v : Int) : readSigned radix [] ≠ .ok v := by
  simp [readSigned, Text.splitSign]

/-- Without a letter for its base at the end, a name is no number. -/
theorem readPlain_ne_ok_of_isLabelStart {c : Char} (hc : isLabelStart c = true) (rest : List Char)
    (v : Int) : readPlain (c :: rest) ≠ .ok v := by
  unfold readPlain
  split
  · next heq => exact absurd (List.cons.inj heq).1 (ne_of_isLabelStart hc rfl)
  · next heq => exact absurd (List.cons.inj heq).1 (ne_of_isLabelStart hc rfl)
  · exact readSigned_ne_ok_of_isLabelStart hc (Nat.le_refl 10) v

/-- The digits before the ending of base 16 are all that a name is read by. -/
theorem readLiteral_eq_ok_iff_of_isLabelName {name : String} (h : isLabelName name = true)
    {v : Int} :
    readLiteral name.toList = .ok v ↔
      ∃ digits, name.toList = digits ++ ['h'] ∧ readSigned 16 digits = .ok v := by
  have hbar : ∀ {ending : Char} {digits : List Char},
      name.toList.reverse ≠ ending :: '|' :: digits := by
    intro ending digits hname
    have hmem : '|' ∈ name.toList := List.mem_reverse.mp (by rw [hname]; simp)
    exact absurd (isLabelChar_of_mem h hmem) (by decide)
  have hends : ∀ {digits : List Char}, name.toList = digits ++ ['h'] →
      name.toList.reverse = 'h' :: digits.reverse := by
    intro digits hname
    rw [hname, List.reverse_concat]
  unfold readLiteral
  split
  · next hname => exact absurd hname hbar
  · next digits _ hname =>
    constructor
    · intro hread
      exact ⟨digits.reverse, List.reverse_eq_cons_iff.mp hname, hread⟩
    · rintro ⟨digits', hname', hread⟩
      obtain ⟨-, rfl⟩ := List.cons.inj (hname.symm.trans (hends hname'))
      rwa [List.reverse_reverse]
  · next hname => exact absurd hname hbar
  · next digits _ hname =>
    constructor
    · -- base 2 has no digit that begins a name
      intro hread
      rcases eq_nil_or_isLabelStart h (List.reverse_eq_cons_iff.mp hname) with
        hnil | ⟨c, rest, hcons, hc⟩
      · rw [hnil] at hread
        exact absurd hread (readSigned_nil_ne_ok 2 v)
      · rw [hcons] at hread
        exact absurd hread (readSigned_ne_ok_of_isLabelStart hc (by decide) v)
    · rintro ⟨digits', hname', -⟩
      cases hname.symm.trans (hends hname')
  · next hh _ _ =>
    constructor
    · intro hread
      obtain ⟨c, rest, hchars, hc, -⟩ := isLabelName_iff.mp h
      rw [hchars] at hread
      exact absurd hread (readPlain_ne_ok_of_isLabelStart hc rest v)
    · rintro ⟨digits, hname, -⟩
      exact absurd (hends hname) (hh digits.reverse)

/-- A literal is a number if it is one of any size and in range. -/
theorem readValue_eq_ok_iff {text : String} {v : Int} :
    readValue text = .ok v ↔ readLiteral text.toList = .ok v ∧ Word.InRange v := by
  unfold readValue
  cases readLiteral text.toList with
  | error fault => simp
  | ok n =>
    by_cases hn : Word.InRange n
    · simp only [if_pos hn, Except.ok.injEq]
      exact ⟨fun heq => ⟨heq, heq ▸ hn⟩, And.left⟩
    · simp only [if_neg hn, reduceCtorEq, Except.ok.injEq, false_iff, not_and]
      exact fun heq => heq ▸ hn

/-- **Names that are numbers.** A name is read as a number exactly if it is one of base 16 by its
ending and short enough. -/
theorem readValue_eq_ok_iff_of_isLabelName {name : String} (h : isLabelName name = true) {v : Int} :
    readValue name = .ok v ↔ numeralOf? name = some v := by
  rw [readValue_eq_ok_iff, readLiteral_eq_ok_iff_of_isLabelName h, numeralOf?_eq_some_iff]
  -- what is left is a matter of the digits before the ending
  have hdigits : ∀ {digits : List Char}, name.toList = digits ++ ['h'] →
      (readSigned 16 digits = .ok v ∧ Word.InRange v ↔
        digits ≠ [] ∧ digits.all (Text.isDigit 16) = true ∧ digits.length ≤ 7 ∧
          (Text.numberOf 16 digits : Int) = v) := by
    intro digits hname
    rcases eq_nil_or_isLabelStart h hname with rfl | ⟨c, rest, rfl, hc⟩
    · simp [readSigned_nil_ne_ok]
    · rw [readSigned_eq_ok_iff_of_isLabelStart hc (by decide)]
      constructor
      · rintro ⟨⟨hall, rfl⟩, hrange⟩
        exact ⟨List.cons_ne_nil c rest, hall, (inRange_numberOf_iff hc hall).mp hrange, rfl⟩
      · rintro ⟨-, hall, hlength, rfl⟩
        exact ⟨⟨hall, rfl⟩, (inRange_numberOf_iff hc hall).mpr hlength⟩
  constructor
  · rintro ⟨⟨digits, hname, hread⟩, hrange⟩
    exact ⟨digits, hname, (hdigits hname).mp ⟨hread, hrange⟩⟩
  · rintro ⟨digits, hname, hnumeral⟩
    obtain ⟨hread, hrange⟩ := (hdigits hname).mpr hnumeral
    exact ⟨⟨digits, hname, hread⟩, hrange⟩

/-! ### Operands with the name of a label -/

/-- What a name stands for as an operand, if it is no register: a number or a label. -/
theorem operandOf?_of_isLabelName {name : String} (h : isLabelName name = true)
    (hregister : Slot.ofName? name = none) :
    operandOf? name =
      some (match numeralOf? name with
        | some v => .immediate v
        | none => .label name) := by
  -- a name begins with no bracket, so it goes on to the numbers
  have hcell : bracketed? name = none := by
    obtain ⟨c, rest, hchars, hc, -⟩ := isLabelName_iff.mp h
    unfold bracketed?
    rw [hchars]
    split
    · next heq => exact absurd (List.cons.inj heq).1 (ne_of_isLabelStart hc rfl)
    · rfl
  unfold operandOf?
  simp only [hregister, hcell]
  cases hnumeral : numeralOf? name with
  | some v => simp only [(readValue_eq_ok_iff_of_isLabelName h).mpr hnumeral]
  | none =>
    cases hread : readValue name with
    | ok v =>
      rw [readValue_eq_ok_iff_of_isLabelName h, hnumeral] at hread
      cases hread
    | error fault => simp only [h, if_true]

/-- The tokens of a line that follow its labels. -/
def statementTokens (tokens : List String) : List String :=
  tokens.dropWhile fun token => (labelOf? token).isSome

/-- The statement of a line is parsed from what follows its labels. -/
theorem Line.statement_ofTokens (tokens : List String) :
    (Line.ofTokens tokens).statement =
      match statementTokens tokens with
      | [] => .none
      | mnemonic :: rest =>
        match parseInstruction mnemonic rest with
        | .ok ins => .instruction ins
        | .error fault => .malformed fault := by
  induction tokens with
  | nil => rfl
  | cons token rest ih =>
    rw [Line.ofTokens, statementTokens, List.dropWhile_cons]
    cases hlabel : labelOf? token with
    | some name => exact ih
    | none =>
      cases hins : parseInstruction token rest with
      | ok ins => simp [hins]
      | error fault => simp [hins]

/-- A token is written as an operand of its kind in the instruction of a line. -/
structure OperandAt (tokens : List String) (opcode : Opcode) (j : Nat) (kind : OperandKind)
    (token : String) : Prop where
  statement : ∃ mnemonic rest, statementTokens tokens = mnemonic :: rest ∧
    Opcode.ofMnemonic? mnemonic = some opcode ∧ rest[j]? = some token
  kind : opcode.signature[j]? = some kind

theorem StandFor.operandFor?_of_getElem? {kinds : List OperandKind} {tokens : List String}
    {os : List Operand} (h : StandFor kinds tokens os) {j : Nat} {kind : OperandKind}
    {token : String} (hkind : kinds[j]? = some kind) (htoken : tokens[j]? = some token) :
    ∃ o, os[j]? = some o ∧ operandFor? kind token = some o := by
  induction h generalizing j with
  | nil => cases hkind
  | cons head _ ih =>
    cases j with
    | zero =>
      obtain rfl := Option.some.inj hkind
      obtain rfl := Option.some.inj htoken
      exact ⟨_, rfl, head⟩
    | succ j => exact ih hkind htoken

/-- In a line that is not malformed, the instruction has the operand that the token stands for. -/
theorem OperandAt.exists_instruction? {tokens : List String} {opcode : Opcode} {j : Nat}
    {kind : OperandKind} {token : String} (h : OperandAt tokens opcode j kind token)
    (hline : ∀ fault, (Line.ofTokens tokens).statement ≠ .malformed fault) :
    ∃ ins o, (Line.ofTokens tokens).instruction? = some ins ∧ ins.opcode = opcode ∧
      ins.operands[j]? = some o ∧ operandFor? kind token = some o := by
  obtain ⟨mnemonic, rest, htokens, hopcode, htoken⟩ := h.statement
  have hstatement := Line.statement_ofTokens tokens
  rw [htokens] at hstatement
  cases hins : parseInstruction mnemonic rest with
  | error fault =>
    simp only [hins] at hstatement
    exact absurd hstatement (hline fault)
  | ok ins =>
    simp only [hins] at hstatement
    -- the operands were read one for each token, in order
    obtain ⟨hopcode', hstand⟩ := parseInstruction_eq_ok_iff.mp hins
    obtain rfl : opcode = ins.opcode := Option.some.inj (hopcode.symm.trans hopcode')
    obtain ⟨o, ho, hread⟩ := hstand.operandFor?_of_getElem? h.kind htoken
    exact ⟨ins, o, Line.instruction?_eq_some_iff.mpr hstatement, rfl, ho, hread⟩

/-- **What a reference means.** An operand with the name of a label becomes the index of the label,
unless the name is read as a number; then it becomes that number, and means the label only if the
two are equal. -/
theorem reference_means_label_iff {tokenLines : List (List String)} {defines : Table String}
    {p : Program} (h : (parse tokenLines defines).program = .ok p) {name : String} {index : Int}
    (hlabel : p.labels.find? name = some index) (hregister : Slot.ofName? name = none) {k : Nat}
    {tokens : List String} (htokens : tokenLines[k]? = some tokens) {opcode : Opcode} {j : Nat}
    (hoperand : OperandAt tokens opcode j .source name) :
    ∃ ins, p.instructions[(instructionsOf ((tokenLines.take k).map Line.ofTokens)).length]? =
        some ins ∧
      ins.opcode = opcode ∧
      ins.operands[j]? = some (.immediate ((numeralOf? name).getD index)) ∧
      (ins.operands[j]? = some (.immediate index) ↔
        ∀ v, numeralOf? name = some v → v = index) := by
  obtain ⟨ls, body, rfl, hnames, hlines, hresolves, rfl⟩ := parse_eq_ok_iff.mp h
  have hl : (tokenLines.map Line.ofTokens)[k]? = some (Line.ofTokens tokens) := by
    rw [List.getElem?_map, htokens]
    rfl
  -- a label that is found was set, so it has the name of one
  have hname : isLabelName name = true := by
    obtain ⟨_, l, hl, hmem, -⟩ := (find?_labelTable_eq_some_iff hnames).mp hlabel
    obtain ⟨tokens', -, rfl⟩ := List.mem_map.mp (List.mem_of_getElem? hl)
    exact Line.isLabelName_of_mem_labels hmem
  obtain ⟨ins, o, hins, hopcode, ho, hread⟩ :=
    hoperand.exists_instruction? (hlines _ (List.mem_of_getElem? hl))
  obtain ⟨ins', hins', hresolved⟩ :=
    exists_getElem?_of_forall₂ hresolves (getElem?_instructionsOf hl hins)
  obtain ⟨o', ho', hresolved'⟩ := exists_getElem?_of_forall₂ hresolved.operands ho
  -- the second pass looks up only what the first reading left as a label
  have hvalue : o' = .immediate ((numeralOf? name).getD index) := by
    rw [operandFor?, operandOf?_of_isLabelName hname hregister] at hread
    obtain rfl := Option.some.inj hread
    cases hnumeral : numeralOf? name with
    | some v =>
      rw [hnumeral] at hresolved'
      exact (resolves_iff_eq rfl).mp hresolved'
    | none =>
      rw [hnumeral] at hresolved'
      obtain ⟨i, hi, rfl⟩ := resolves_label_iff.mp hresolved'
      obtain rfl : i = index := Option.some.inj (hi.symm.trans hlabel)
      rfl
  refine ⟨ins', ?_, hresolved.opcode.trans hopcode, hvalue ▸ ho', ?_⟩
  · -- the instruction is one of the body, so the sentinel is not reached
    have hlt := (List.getElem?_eq_some_iff.mp hins').1
    rw [← Array.getElem?_toList, Array.toList_push, List.map_take, List.getElem?_append_left hlt]
    exact hins'
  · rw [ho', hvalue, Option.some.injEq, Operand.immediate.injEq]
    cases hnumeral : numeralOf? name with
    | some v => simp
    | none => simp

/-- Labels with a name that is a number, one that is too long for a number, and one with letters
that are no digits. -/
def hexNamedLines : List (List String) :=
  [["nop"], ["ah:", "loop:", "jmp", "ah"], ["mov", "eax", "deadbeefh"], ["jg", "loop"],
    ["deadbeefh:"]]

def hexNamedProgram : Program where
  instructions := #[⟨.nop, []⟩, ⟨.jmp, [.immediate 10]⟩, ⟨.mov, [.register 0, .immediate 4]⟩,
    ⟨.jg, [.immediate 1]⟩, .sentinel]
  start := 0
  defines := .empty
  labels := ⟨[("ah", 1), ("loop", 1), ("deadbeefh", 4)]⟩

theorem hexNamedLines_references :
    (parse hexNamedLines .empty).program = .ok hexNamedProgram ∧
      (∃ ins, hexNamedProgram.instructions[1]? = some ins ∧ ins.opcode = .jmp ∧
        ins.operands[0]? = some (.immediate 10) ∧
        ¬ ins.operands[0]? = some (.immediate 1)) ∧
      (∃ ins, hexNamedProgram.instructions[2]? = some ins ∧ ins.opcode = .mov ∧
        ins.operands[1]? = some (.immediate 4)) := by
  have hparse : (parse hexNamedLines .empty).program = .ok hexNamedProgram := rfl
  refine ⟨hparse, ?_, ?_⟩
  · have hlabel : hexNamedProgram.labels.find? "ah" = some 1 := rfl
    have htokens : hexNamedLines[1]? = some ["ah:", "loop:", "jmp", "ah"] := rfl
    have hoperand : OperandAt ["ah:", "loop:", "jmp", "ah"] .jmp 0 .source "ah" :=
      ⟨⟨"jmp", ["ah"], rfl, rfl, rfl⟩, rfl⟩
    obtain ⟨ins, hins, hopcode, hread, hmeans⟩ :=
      reference_means_label_iff hparse hlabel rfl htokens hoperand
    refine ⟨ins, hins, hopcode, hread, fun h => ?_⟩
    exact absurd (hmeans.mp h 10 rfl) (by decide)
  · have hlabel : hexNamedProgram.labels.find? "deadbeefh" = some 4 := rfl
    have htokens : hexNamedLines[2]? = some ["mov", "eax", "deadbeefh"] := rfl
    have hoperand : OperandAt ["mov", "eax", "deadbeefh"] .mov 1 .source "deadbeefh" :=
      ⟨⟨"mov", ["eax", "deadbeefh"], rfl, rfl, rfl⟩, rfl⟩
    obtain ⟨ins, hins, hopcode, hread, -⟩ :=
      reference_means_label_iff hparse hlabel rfl htokens hoperand
    exact ⟨ins, hins, hopcode, hread⟩

/-- The label `ah` is set before the second instruction, which jumps to the tenth. -/
theorem reference_missed :
    ∃ p, (parse [["nop"], ["ah:", "jmp", "ah"]] .empty).program = .ok p ∧
      p.labels.find? "ah" = some 1 ∧ Slot.ofName? "ah" = none ∧
      OperandAt ["ah:", "jmp", "ah"] .jmp 0 .source "ah" ∧
      p.instructions[1]? = some ⟨.jmp, [.immediate 10]⟩ :=
  ⟨_, rfl, rfl, rfl, ⟨⟨"jmp", ["ah"], rfl, rfl, rfl⟩, rfl⟩, rfl⟩

end Assembly

end CellMachine
