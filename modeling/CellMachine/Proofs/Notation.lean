import CellMachine.Proofs.Acceptance
import CellMachine.Proofs.Tokens

/-!
# What is written is read back

The text of a number, an operand and an instruction is read as what it was written for:

* a number is written in base 10, and no ending or mark of another base can be seen in its digits
  (`readValue_toString`);
* the text of an operand is one token, which stands for the operand (`operandFor?_text`);
* the text of an instruction is its mnemonic and the texts of its operands (`words_text`), and a
  line with these tokens holds the instruction (`Line.ofTokens_text`).

All of it is written in plain characters (`isPlain`), which neither separate tokens nor start a
comment, a line or a directive.
-/

namespace CellMachine

namespace Assembly

/-! ### Plain characters -/

/-- A character that names, numbers and brackets are written in. -/
def isPlain (c : Char) : Bool := isLabelChar c || c == '[' || c == ']' || c == '-' || c == ':'

/-- Characters that are plain are none of those with a meaning of their own. -/
theorem ne_of_isPlain {c d : Char} (hc : isPlain c = true) (hd : isPlain d = false) : c ≠ d := by
  rintro rfl
  rw [hc] at hd
  cases hd

theorem isTokenChar_of_isPlain {c : Char} (h : isPlain c = true) : isTokenChar c = true := by
  have hseparator : isSeparator c = false := by
    simp only [isSeparator, Bool.or_eq_false_iff, beq_eq_false_iff_ne]
    exact ⟨⟨⟨ne_of_isPlain h rfl, ne_of_isPlain h rfl⟩, ne_of_isPlain h rfl⟩, ne_of_isPlain h rfl⟩
  exact isTokenChar_iff.mpr ⟨hseparator, ne_of_isPlain h rfl, ne_of_isPlain h rfl⟩

theorem isPlain_of_isLabelChar {c : Char} (h : isLabelChar c = true) : isPlain c = true := by
  simp [isPlain, h]

/-- What is written one by one is read one by one. -/
theorem mapM_map_eq_some {α β : Type} {read : α → Option β} {write : β → α} {items : List β}
    (h : ∀ x ∈ items, read (write x) = some x) : (items.map write).mapM read = some items := by
  induction items with
  | nil => rfl
  | cons x items ih =>
    obtain ⟨hx, hitems⟩ := List.forall_mem_cons.mp h
    rw [List.map_cons, List.mapM_cons, hx, ih hitems]
    rfl

/-! ### Numbers -/

theorem isDigit_bounds {c : Char} (h : c.isDigit = true) : '0' ≤ c ∧ c ≤ '9' := by
  rw [Char.isDigit, Bool.and_eq_true, decide_eq_true_iff, decide_eq_true_iff] at h
  exact h

theorem isPlain_of_isDigit {c : Char} (h : c.isDigit = true) : isPlain c = true := by
  have hbounds := isDigit_bounds h
  exact isPlain_of_isLabelChar (by simp [isLabelChar, hbounds.1, hbounds.2])

theorem digitValue?_of_isDigit {c : Char} (h : c.isDigit = true) :
    Text.digitValue? 10 c = some (c.toNat - '0'.toNat) := by
  have hbounds := isDigit_bounds h
  have hlt : c.toNat - '0'.toNat < 10 := by
    have hle : c.toNat ≤ '9'.toNat := hbounds.2
    have h9 : '9'.toNat = 57 := rfl
    have h0 : '0'.toNat = 48 := rfl
    omega
  simp only [Text.digitValue?, if_pos hbounds]
  rw [Option.filter_some, if_pos (decide_eq_true hlt)]

theorem isDigit_of_mem_toDigits {n : Nat} {c : Char} (h : c ∈ Nat.toDigits 10 n) :
    c.isDigit = true :=
  Nat.isDigit_of_mem_toDigits (by decide) (by decide) h

theorem numberOf_toDigits (n : Nat) : Text.numberOf 10 (Nat.toDigits 10 n) = n := by
  -- both fold the digits from the left
  have hfold : Text.numberOf 10 (Nat.toDigits 10 n) =
      Nat.ofDigitChars 10 (Nat.toDigits 10 n) 0 := by
    rw [Nat.ofDigitChars_eq_foldl]
    refine List.foldl_ext _ _ _ fun k c hc => ?_
    rw [digitValue?_of_isDigit (isDigit_of_mem_toDigits hc), Option.getD_some, Nat.mul_comm]
  rw [hfold, Nat.ofDigitChars_ten_toDigits]

theorem splitSign_toDigits (n : Nat) :
    Text.splitSign (Nat.toDigits 10 n) = (false, Nat.toDigits 10 n) := by
  have hsign : ∀ c ∈ Nat.toDigits 10 n, c ≠ '-' ∧ c ≠ '+' := by
    intro c hc
    have hdigit := isDigit_of_mem_toDigits hc
    constructor
    · rintro rfl
      cases hdigit
    · rintro rfl
      cases hdigit
  unfold Text.splitSign
  split
  · next heq => exact absurd rfl (hsign '-' (heq ▸ List.mem_cons_self)).1
  · next heq => exact absurd rfl (hsign '+' (heq ▸ List.mem_cons_self)).2
  · rfl

theorem readSigned_of_splitSign {text : List Char} {negative : Bool} {n : Nat}
    (hsign : Text.splitSign text = (negative, Nat.toDigits 10 n))
    (hn : (Nat.toDigits 10 n).length ≤ Text.digitLimit) :
    readSigned 10 text = .ok (if negative then -(n : Int) else n) := by
  have hdigits : (Nat.toDigits 10 n).all (Text.isDigit 10) = true := by
    rw [List.all_eq_true]
    intro c hc
    rw [Text.isDigit, digitValue?_of_isDigit (isDigit_of_mem_toDigits hc)]
    rfl
  have hnonempty : (Nat.toDigits 10 n).isEmpty = false :=
    List.isEmpty_eq_false_iff.mpr Nat.toDigits_ne_nil
  unfold readSigned
  rw [hsign]
  simp only [hnonempty, hdigits, numberOf_toDigits, Nat.not_lt.mpr hn, Bool.false_eq_true,
    not_true_eq_false, or_self, if_false, and_false]

/-- The characters of a number: a sign, if it is negative, and digits. -/
theorem toList_toString (v : Int) :
    (toString v).toList =
      if 0 ≤ v then Nat.toDigits 10 v.toNat else '-' :: Nat.toDigits 10 (-v).toNat := by
  rw [Int.toString_eq_repr, Int.repr_eq_if]
  split
  · exact Nat.toList_repr
  · rw [String.toList_append, Nat.toList_repr]
    rfl

theorem mem_toString {v : Int} {c : Char} (h : c ∈ (toString v).toList) :
    c = '-' ∨ c.isDigit = true := by
  rw [toList_toString] at h
  split at h
  · exact Or.inr (isDigit_of_mem_toDigits h)
  · exact (List.mem_cons.mp h).imp_right isDigit_of_mem_toDigits

/-- The last character of a number is a digit. -/
theorem exists_toString_eq_concat (v : Int) :
    ∃ front c, (toString v).toList = front ++ [c] ∧ c.isDigit = true := by
  have hsplit : ∀ n, ∃ front c, Nat.toDigits 10 n = front ++ [c] ∧ c.isDigit = true := by
    intro n
    have hne : Nat.toDigits 10 n ≠ [] := Nat.toDigits_ne_nil
    exact ⟨_, _, (List.dropLast_concat_getLast hne).symm,
      isDigit_of_mem_toDigits (List.getLast_mem hne)⟩
  rw [toList_toString]
  split
  · exact hsplit _
  · obtain ⟨front, c, hfront, hc⟩ := hsplit (-v).toNat
    exact ⟨'-' :: front, c, by rw [hfront, List.cons_append], hc⟩

theorem readSigned_toString {v : Int} (hv : Word.InRange v) :
    readSigned 10 (toString v).toList = .ok v := by
  -- a word has at most ten digits
  have hshort : ∀ n : Nat, n < 10000000000 → (Nat.toDigits 10 n).length ≤ Text.digitLimit := by
    intro n hn
    have hten : (Nat.toDigits 10 n).length ≤ 10 :=
      (Nat.length_toDigits_le_iff (by decide) (by decide)).mpr hn
    exact Nat.le_trans hten (by decide)
  unfold Word.InRange Word.minimum Word.maximum at hv
  rw [toList_toString]
  split
  · next hpos =>
    rw [readSigned_of_splitSign (splitSign_toDigits _) (hshort _ (by omega)), if_neg (by decide),
      Int.toNat_of_nonneg hpos]
  · next hneg =>
    have hsign : Text.splitSign ('-' :: Nat.toDigits 10 (-v).toNat) =
        (true, Nat.toDigits 10 (-v).toNat) := rfl
    rw [readSigned_of_splitSign hsign (hshort _ (by omega)), if_pos rfl,
      Int.toNat_of_nonneg (by omega), Int.neg_neg]

/-- A text that ends in a digit and has no `x` is in base 10. -/
theorem readLiteral_of_decimal {front : List Char} {c : Char} (hc : c.isDigit = true)
    (hx : 'x' ∉ front ++ [c]) : readLiteral (front ++ [c]) = readSigned 10 (front ++ [c]) := by
  -- without an `x` there is no mark of base 16 at the front
  have hplain : readPlain (front ++ [c]) = readSigned 10 (front ++ [c]) := by
    unfold readPlain
    split
    · next heq => exact absurd (heq ▸ by simp) hx
    · next heq => exact absurd (heq ▸ by simp) hx
    · rfl
  have hletter : ∀ {d : Char} {rest : List Char}, c :: front.reverse = d :: rest →
      d.isDigit = true := by
    intro d rest heq
    rwa [(List.cons.inj heq).1] at hc
  unfold readLiteral
  rw [List.reverse_concat, hplain]
  -- the letters for a base are no digits
  split
  · next heq => cases hletter heq
  · next heq => cases hletter heq
  · next heq => cases hletter heq
  · next heq => cases hletter heq
  · rfl

/-- **A number is read back.** -/
theorem readValue_toString {v : Int} (hv : Word.InRange v) : readValue (toString v) = .ok v := by
  have hx : 'x' ∉ (toString v).toList := by
    intro h
    rcases mem_toString h with heq | hdigit
    · cases heq
    · cases hdigit
  obtain ⟨front, c, htext, hc⟩ := exists_toString_eq_concat v
  have hread : readLiteral (toString v).toList = .ok v := by
    rw [htext] at hx
    rw [htext, readLiteral_of_decimal hc hx, ← htext, readSigned_toString hv]
  rw [readValue, hread]
  exact if_pos hv

theorem isPlain_of_mem_toString {v : Int} {c : Char} (h : c ∈ (toString v).toList) :
    isPlain c = true := by
  rcases mem_toString h with rfl | hdigit
  · rfl
  · exact isPlain_of_isDigit hdigit

/-! ### Operands -/

theorem ofName?_name : ∀ s : Slot, Slot.ofName? s.name = some s := by decide

/-- The names of registers begin with one of two letters. -/
theorem head?_name :
    ∀ s : Slot, s.name.toList.head? = some 'e' ∨ s.name.toList.head? = some 'r' := by
  decide

theorem ofName?_eq_none {token : String} {c : Char} {rest : List Char}
    (htoken : token.toList = c :: rest) (he : c ≠ 'e') (hr : c ≠ 'r') :
    Slot.ofName? token = none := by
  rw [Slot.ofName?, List.find?_eq_none]
  intro s _ hname
  have hhead := head?_name s
  rw [of_decide_eq_true hname, htoken, List.head?_cons, Option.some.injEq,
    Option.some.injEq] at hhead
  exact hhead.elim he hr

theorem bracketed?_brackets (inner : String) : bracketed? ("[" ++ inner ++ "]") = some inner := by
  have htoken : ("[" ++ inner ++ "]").toList = '[' :: (inner.toList ++ [']']) := by
    rw [String.toList_append, String.toList_append]
    rfl
  have hinner : (inner.toList ++ [']']).reverse = ']' :: inner.toList.reverse := List.reverse_concat
  simp only [bracketed?, htoken, hinner, List.reverse_reverse, String.ofList_toList]

theorem isBlank_of_mem_toString {v : Int} {c : Char} (h : c ∈ (toString v).toList) :
    Text.isBlank c = false := by
  rcases mem_toString h with rfl | hdigit
  · decide
  · have hlow : 48 ≤ c.toNat := (isDigit_bounds hdigit).1
    have hhigh : c.toNat ≤ 57 := (isDigit_bounds hdigit).2
    simp [Text.isBlank]
    omega

theorem trimChars_of_free {s : List Char} (h : ∀ c ∈ s, Text.isBlank c = false) :
    Text.trimChars s = s := by
  have hdrop : ∀ s : List Char, (∀ c ∈ s, Text.isBlank c = false) →
      s.dropWhile Text.isBlank = s := by
    intro s hs
    cases s with
    | nil => rfl
    | cons c s => exact List.dropWhile_cons_of_neg (by simp [hs c])
  rw [Text.trimChars, hdrop s h, hdrop s.reverse fun c hc => h c (List.mem_reverse.mp hc),
    List.reverse_reverse]

theorem cellOf?_toString {i : Int} (hi : 0 ≤ i ∧ i ≤ Word.maximum) :
    cellOf? (toString i) = some (.cell i) := by
  have hrange : Word.InRange i := by
    unfold Word.InRange Word.minimum
    omega
  have htrim : Text.trim (toString i) = toString i := by
    rw [Text.trim, trimChars_of_free fun c hc => isBlank_of_mem_toString hc, String.ofList_toList]
  simp only [cellOf?, htrim, readValue_toString hrange, if_neg (Int.not_lt.mpr hi.1)]

/-- The first character of a number belongs to nothing else. -/
theorem exists_toString_eq_cons (v : Int) :
    ∃ c rest, (toString v).toList = c :: rest ∧ (c = '-' ∨ c.isDigit = true) := by
  cases htext : (toString v).toList with
  | nil =>
    obtain ⟨front, c, hconcat, -⟩ := exists_toString_eq_concat v
    rw [hconcat] at htext
    exact absurd htext (List.concat_ne_nil c front)
  | cons c rest =>
    have hmem : c ∈ (toString v).toList := htext ▸ List.mem_cons_self
    exact ⟨c, rest, rfl, mem_toString hmem⟩

theorem exists_slot_text {index : Int} (h : 0 ≤ index ∧ index < slotCount) :
    ∃ s : Slot, (s.val : Int) = index ∧ (Operand.register index).text = s.name :=
  ⟨⟨index.toNat, by omega⟩, Int.toNat_of_nonneg h.1, dif_pos h⟩

theorem toList_text_cell (index : Int) :
    (Operand.cell index).text.toList = '[' :: ((toString index).toList ++ [']']) := by
  show ("[" ++ toString index ++ "]").toList = _
  rw [String.toList_append, String.toList_append]
  rfl

/-- The text of an operand stands for the operand. -/
theorem operandOf?_text {o : Operand} (h : o.Written .source) (hlabel : o.isLabel = false) :
    operandOf? o.text = some o := by
  -- a token is tried as a register, a cell, a number and a label in this order, so what comes
  -- before the right one has to fail
  cases o with
  | register index =>
    obtain ⟨s, rfl, hname⟩ := exists_slot_text h
    simp only [operandOf?, hname, ofName?_name]
  | cell index =>
    have hregister : Slot.ofName? (Operand.cell index).text = none :=
      ofName?_eq_none (toList_text_cell index) (by decide) (by decide)
    have hbracketed : bracketed? (Operand.cell index).text = some (toString index) :=
      bracketed?_brackets _
    simp only [operandOf?, hregister, hbracketed]
    exact cellOf?_toString h
  | immediate value =>
    obtain ⟨c, rest, htext, hc⟩ := exists_toString_eq_cons value
    have hother : ∀ d : Char, d ≠ '-' → d.isDigit = false → c ≠ d := by
      rintro d hminus hdigit rfl
      rcases hc with heq | hc
      · exact hminus heq
      · rw [hc] at hdigit
        cases hdigit
    have hregister : Slot.ofName? (toString value) = none :=
      ofName?_eq_none htext (hother 'e' (by decide) rfl) (hother 'r' (by decide) rfl)
    have hbracketed : bracketed? (toString value) = none := by
      unfold bracketed?
      rw [htext]
      split
      · next heq => exact absurd (List.cons.inj heq).1 (hother '[' (by decide) rfl)
      · rfl
    show operandOf? (toString value) = some (.immediate value)
    simp only [operandOf?, hregister, hbracketed, readValue_toString h]
  | label name => cases hlabel

/-- **An operand is read back**, whatever its kind. -/
theorem operandFor?_text {kind : OperandKind} {o : Operand} (h : o.Written kind)
    (hlabel : o.isLabel = false) : operandFor? kind o.text = some o := by
  have hread := operandOf?_text (Operand.Written.source h) hlabel
  cases kind with
  | source => exact hread
  | target =>
    have hwritable : o.isWritable = true := by
      cases o with
      | register index => rfl
      | cell index => rfl
      | immediate value => exact h.elim
      | label name => exact h.elim
    rw [operandFor?, hread, Option.filter_some, if_pos hwritable]

theorem isPlain_of_mem_name (s : Slot) : ∀ c ∈ s.name.toList, isPlain c = true := by
  have hall : ∀ s : Slot, s.name.toList.all isPlain = true := by decide
  exact List.all_eq_true.mp (hall s)

theorem name_ne_nil : ∀ s : Slot, s.name.toList ≠ [] := by decide

/-- The text of an operand is one token. -/
theorem isPlain_text {kind : OperandKind} {o : Operand} (h : o.Written kind)
    (hlabel : o.isLabel = false) : o.text.toList ≠ [] ∧ ∀ c ∈ o.text.toList, isPlain c = true := by
  cases o with
  | register index =>
    obtain ⟨s, -, hname⟩ := exists_slot_text (Operand.Written.source h)
    rw [hname]
    exact ⟨name_ne_nil s, isPlain_of_mem_name s⟩
  | cell index =>
    rw [toList_text_cell]
    refine ⟨List.cons_ne_nil _ _, fun c hc => ?_⟩
    rcases List.mem_cons.mp hc with rfl | hc
    · rfl
    · rcases List.mem_append.mp hc with hc | hc
      · exact isPlain_of_mem_toString hc
      · obtain rfl := List.mem_singleton.mp hc
        rfl
  | immediate value =>
    obtain ⟨c, rest, htext, -⟩ := exists_toString_eq_cons value
    refine ⟨?_, fun c hc => isPlain_of_mem_toString hc⟩
    show (toString value).toList ≠ []
    rw [htext]
    exact List.cons_ne_nil c rest
  | label name => cases hlabel

/-! ### Instructions -/

/-- A run of plain characters is one token. -/
theorem isToken_of_isPlain {w : List Char} (h : w ≠ [] ∧ ∀ c ∈ w, isPlain c = true) : IsToken w :=
  ⟨h.1, fun c hc => isTokenChar_of_isPlain (h.2 c hc)⟩

theorem isPlain_mnemonic : ∀ op ∈ Opcode.executable,
    op.mnemonic.toList ≠ [] ∧ ∀ c ∈ op.mnemonic.toList, isPlain c = true := by
  have hall : ∀ op ∈ Opcode.executable,
      op.mnemonic.toList ≠ [] ∧ op.mnemonic.toList.all isPlain = true := by decide
  exact fun op hop => (hall op hop).imp_right List.all_eq_true.mp

/-- A mnemonic does not fill its column. -/
theorem length_mnemonic_lt : ∀ op ∈ Opcode.executable, op.mnemonic.toList.length < 6 := by decide

theorem ofMnemonic?_mnemonic : ∀ op ∈ Opcode.executable,
    Opcode.ofMnemonic? op.mnemonic = some op := by decide

theorem labelOf?_mnemonic : ∀ op ∈ Opcode.executable, labelOf? op.mnemonic = none := by decide

theorem words_padRight_append {w : String} (hw : IsToken w.toList) {width : Nat}
    (hwidth : w.toList.length < width) (rest : List Char) :
    words ((Text.padRight width w).toList ++ rest) = w :: words rest := by
  -- the first space ends the word, and the others are skipped
  obtain ⟨k, hk⟩ : ∃ k, width - w.toList.length = k + 1 :=
    Nat.exists_eq_succ_of_ne_zero (Nat.sub_ne_zero_of_lt hwidth)
  have hblanks : ∀ c ∈ List.replicate k ' ', isSeparator c = true := by
    intro c hc
    rw [List.eq_of_mem_replicate hc]
    rfl
  rw [Text.padRight, String.toList_ofList, hk, List.replicate_succ, List.append_assoc,
    List.cons_append, words_append_cons hw rfl, words_append_separators hblanks,
    String.ofList_toList]

variable {ins : Instruction}

/-- The text of an instruction is its mnemonic and the texts of its operands. -/
theorem words_text (h : ins.Written) (hfree : ins.LabelFree) :
    words ins.text.toList = ins.opcode.mnemonic :: ins.operands.map Operand.text := by
  have hmnemonic := isToken_of_isPlain (isPlain_mnemonic _ h.executable)
  unfold Instruction.text
  split
  · next hempty =>
    rw [List.isEmpty_iff.mp hempty, words_token hmnemonic, String.ofList_toList, List.map_nil]
  · have htokens : ∀ w ∈ (ins.operands.map Operand.text).map String.toList, IsToken w := by
      intro w hw
      rw [List.map_map] at hw
      obtain ⟨o, ho, rfl⟩ := List.mem_map.mp hw
      obtain ⟨kind, hkind⟩ := h.operand ho
      exact isToken_of_isPlain (isPlain_text hkind (hfree o ho))
    have htexts : ∀ texts : List String, (texts.map String.toList).map String.ofList = texts := by
      intro texts
      rw [List.map_map]
      exact List.map_id'' (fun s => String.ofList_toList) texts
    rw [String.toList_append, String.toList_intercalate,
      words_padRight_append hmnemonic (length_mnemonic_lt _ h.executable),
      words_intercalate htokens, htexts]

/-- An instruction is written in plain characters and separators. -/
theorem plain_or_separator_of_mem_text (h : ins.Written) (hfree : ins.LabelFree) {c : Char}
    (hc : c ∈ ins.text.toList) : isPlain c = true ∨ isSeparator c = true := by
  have hmnemonic := (isPlain_mnemonic _ h.executable).2
  unfold Instruction.text at hc
  split at hc
  · exact Or.inl (hmnemonic c hc)
  · rw [String.toList_append, Text.padRight, String.toList_ofList, String.toList_intercalate,
      List.mem_append, List.mem_append] at hc
    -- the mnemonic, the spaces that fill its column, and the operands with commas between them
    rcases hc with (hc | hc) | hc
    · exact Or.inl (hmnemonic c hc)
    · rw [List.eq_of_mem_replicate hc]
      exact Or.inr rfl
    · rcases Text.mem_of_mem_intercalate hc with hc | ⟨w, hw, hc⟩
      · have hcomma : ", ".toList.all isSeparator = true := by decide
        exact Or.inr (List.all_eq_true.mp hcomma c hc)
      · rw [List.map_map] at hw
        obtain ⟨o, ho, rfl⟩ := List.mem_map.mp hw
        obtain ⟨kind, hkind⟩ := h.operand ho
        exact Or.inl ((isPlain_text hkind (hfree o ho)).2 c hc)

theorem standFor_text {kinds : List OperandKind} {os : List Operand}
    (h : List.Forall₂ Operand.Written kinds os) (hfree : ∀ o ∈ os, o.isLabel = false) :
    StandFor kinds (os.map Operand.text) os := by
  induction h with
  | nil => exact .nil
  | cons hkind _ ih =>
    rw [List.forall_mem_cons] at hfree
    exact .cons (operandFor?_text hkind hfree.1) (ih hfree.2)

/-- **An instruction is read back.** -/
theorem Line.ofTokens_text (h : ins.Written) (hfree : ins.LabelFree) :
    ofTokens (ins.opcode.mnemonic :: ins.operands.map Operand.text) = ⟨[], .instruction ins⟩ := by
  have hparse : parseInstruction ins.opcode.mnemonic (ins.operands.map Operand.text) = .ok ins :=
    parseInstruction_eq_ok_iff.mpr
      ⟨ofMnemonic?_mnemonic _ h.executable, standFor_text h.operands hfree⟩
  rw [ofTokens, labelOf?_mnemonic _ h.executable]
  dsimp only
  rw [hparse]

/-- A label is read back. -/
theorem Line.ofTokens_label {name : String} (h : isLabelName name = true) :
    ofTokens [name ++ ":"] = ⟨[name], .none⟩ := by
  rw [ofTokens, labelOf?_eq_some_iff.mpr ⟨rfl, h⟩]
  rfl

theorem isPlain_label {name : String} (h : isLabelName name = true) :
    (name ++ ":").toList ≠ [] ∧ ∀ c ∈ (name ++ ":").toList, isPlain c = true := by
  have hchars : ∀ c ∈ name.toList, isLabelChar c = true := by
    unfold isLabelName at h
    cases hname : name.toList with
    | nil => exact fun c hc => nomatch hc
    | cons c rest =>
      rw [hname, Bool.and_eq_true, List.all_eq_true] at h
      have hfirst : isLabelChar c = true := by simp [isLabelChar, h.1]
      exact List.forall_mem_cons.mpr ⟨hfirst, h.2⟩
  have htoken : (name ++ ":").toList = name.toList ++ [':'] := by
    rw [String.toList_append]
    rfl
  rw [htoken]
  refine ⟨List.concat_ne_nil _ _, fun c hc => ?_⟩
  rcases List.mem_append.mp hc with hc | hc
  · exact isPlain_of_isLabelChar (hchars c hc)
  · obtain rfl := List.mem_singleton.mp hc
    rfl

end Assembly

end CellMachine
