import CellMachine.Proofs.LabelReferences
import CellMachine.Proofs.Notation

/-!
# The grammar of a line

What a line may be is stated here without the order in which its tokens are looked at, and parsing is
shown to accept exactly that.

* `Denotes` is the grammar of operands. Its four forms exclude each other, but for names: the name of
  a register and a name in the notation of a number are no references to a label. Blanks may stand
  just inside the brackets of a cell; a number has none of its own, so it can be told from them
  (`trimChars_append`).
* `Spelled` is the grammar of instructions: a mnemonic and one token for each kind of its signature.
* `Diagnosed` is what is wrong with any other tokens. The mnemonic is looked at first; then the
  operands from the left, where one may be missing or bad; and what is left over comes last.

The two complete each other, so of the tokens that follow the labels either an instruction or a fault
is reported, and it is the one of the grammar (`line_grammar`).
-/

namespace CellMachine

/-! ### Blanks -/

namespace Text

/-- Blanks around characters that are no blanks are trimmed. -/
theorem trimChars_append {before text after : List Char} (hbefore : before.all isBlank = true)
    (hafter : after.all isBlank = true) (htext : ∀ c ∈ text, isBlank c = false) :
    trimChars (before ++ (text ++ after)) = text := by
  have hdrop : ∀ {blanks rest : List Char}, blanks.all isBlank = true →
      (blanks ++ rest).dropWhile isBlank = rest.dropWhile isBlank := by
    intro blanks rest h
    exact List.dropWhile_append_of_pos (List.all_eq_true.mp h)
  unfold trimChars
  rw [hdrop hbefore]
  cases text with
  | nil =>
    -- nothing but blanks
    rw [List.nil_append, ← List.append_nil after, hdrop hafter]
    rfl
  | cons c text =>
    have hfront : ¬ isBlank c = true := by simp [htext c List.mem_cons_self]
    rw [List.cons_append, List.dropWhile_cons_of_neg hfront, ← List.cons_append,
      List.reverse_append, hdrop (by rw [List.all_reverse]; exact hafter)]
    -- from the other end, the first character is the last one of the text
    have hfree := Assembly.trimChars_of_free htext
    unfold trimChars at hfree
    rw [List.dropWhile_cons_of_neg hfront] at hfree
    exact hfree

/-- What is trimmed are blanks. -/
theorem exists_append_trimChars (s : List Char) :
    ∃ before after, s = before ++ (trimChars s ++ after) ∧ before.all isBlank = true ∧
      after.all isBlank = true := by
  have hall : ∀ s : List Char, (s.takeWhile isBlank).all isBlank = true := fun s =>
    List.all_takeWhile
  refine ⟨s.takeWhile isBlank, ((s.dropWhile isBlank).reverse.takeWhile isBlank).reverse, ?_,
    hall s, by rw [List.all_reverse]; exact hall _⟩
  unfold trimChars
  rw [← List.reverse_append, List.takeWhile_append_dropWhile, List.reverse_reverse,
    List.takeWhile_append_dropWhile]

end Text

namespace Assembly

/-! ### The characters of a number -/

/-- A character that numbers are written in. -/
def isNumeralChar (c : Char) : Bool := isLabelChar c || c == '-' || c == '+' || c == '|'

theorem isNumeralChar_of_isDigit {radix : Nat} {c : Char} (h : Text.isDigit radix c = true) :
    isNumeralChar c = true := by
  have hlabel : isLabelChar c = true := by
    obtain ⟨d, hd⟩ := Option.isSome_iff_exists.mp h
    have hvalue := (Option.filter_eq_some_iff.mp hd).1
    unfold isLabelChar isLabelStart
    -- the letters among the digits are the first six of either case
    split at hvalue
    · next hdigit => simp [hdigit.1, hdigit.2]
    · split at hvalue
      · next hletter =>
        have hle : c ≤ 'z' := Char.le_trans hletter.2 (by decide)
        simp [hletter.1, hle]
      · split at hvalue
        · next hletter =>
          have hle : c ≤ 'Z' := Char.le_trans hletter.2 (by decide)
          simp [hletter.1, hle]
        · cases hvalue
  simp [isNumeralChar, hlabel]

/-- They all lie between the space and the last of the printable characters. -/
theorem bounds_of_isNumeralChar {c : Char} (h : isNumeralChar c = true) :
    0x21 ≤ c.toNat ∧ c.toNat ≤ 0x7E := by
  have hbetween : ∀ low high : Char, 0x21 ≤ low.toNat → high.toNat ≤ 0x7E → low ≤ c → c ≤ high →
      0x21 ≤ c.toNat ∧ c.toNat ≤ 0x7E := by
    intro low high hlow hhigh hl hh
    exact ⟨Nat.le_trans hlow hl, Nat.le_trans hh hhigh⟩
  simp only [isNumeralChar, isLabelChar, isLabelStart, Bool.or_eq_true, Bool.and_eq_true,
    beq_iff_eq, decide_eq_true_eq] at h
  rcases h with (((((((rfl | rfl) | rfl) | h) | h) | h) | rfl) | rfl) | rfl
  · decide
  · decide
  · decide
  · exact hbetween 'A' 'Z' (by decide) (by decide) h.1 h.2
  · exact hbetween 'a' 'z' (by decide) (by decide) h.1 h.2
  · exact hbetween '0' '9' (by decide) (by decide) h.1 h.2
  · decide
  · decide
  · decide

theorem isBlank_of_isNumeralChar {c : Char} (h : isNumeralChar c = true) :
    Text.isBlank c = false := by
  have hbounds := bounds_of_isNumeralChar h
  simp [Text.isBlank]
  omega

theorem isNumeralChar_of_readSigned {radix : Nat} {text : List Char} {v : Int}
    (h : readSigned radix text = .ok v) : ∀ c ∈ text, isNumeralChar c = true := by
  have hdigits : (Text.splitSign text).2.all (Text.isDigit radix) = true := by
    unfold readSigned at h
    dsimp only at h
    split at h
    · cases h
    · next hne => exact Decidable.byContradiction fun hnot => hne (Or.inr hnot)
  have hrest : ∀ c ∈ (Text.splitSign text).2, isNumeralChar c = true := fun c hc =>
    isNumeralChar_of_isDigit (List.all_eq_true.mp hdigits c hc)
  unfold Text.splitSign at hrest
  split at hrest
  · exact List.forall_mem_cons.mpr ⟨rfl, hrest⟩
  · exact List.forall_mem_cons.mpr ⟨rfl, hrest⟩
  · exact hrest

theorem isNumeralChar_of_readPlain {text : List Char} {v : Int} (h : readPlain text = .ok v) :
    ∀ c ∈ text, isNumeralChar c = true := by
  unfold readPlain at h
  split at h
  · next digits =>
    simp only [List.forall_mem_cons]
    exact ⟨rfl, rfl, isNumeralChar_of_readSigned h⟩
  · next digits =>
    cases hread : readSigned 16 digits with
    | ok n =>
      simp only [List.forall_mem_cons]
      exact ⟨rfl, rfl, rfl, isNumeralChar_of_readSigned hread⟩
    | error fault =>
      rw [hread] at h
      cases h
  · exact isNumeralChar_of_readSigned h

/-- **A number** is written in characters of numbers, and so it has no blanks. -/
theorem isNumeralChar_of_readValue {text : String} {v : Int} (h : readValue text = .ok v) :
    ∀ c ∈ text.toList, isNumeralChar c = true := by
  have hread := (readValue_eq_ok_iff.mp h).1
  have hreverse : ∀ {digits : List Char} {radix : Nat}, readSigned radix digits.reverse = .ok v →
      ∀ c ∈ digits, isNumeralChar c = true := by
    intro digits radix hdigits c hc
    exact isNumeralChar_of_readSigned hdigits c (List.mem_reverse.mpr hc)
  -- the endings are looked for from the other end of the text
  suffices hall : ∀ c ∈ text.toList.reverse, isNumeralChar c = true from
    fun c hc => hall c (List.mem_reverse.mpr hc)
  unfold readLiteral at hread
  split at hread
  · next heq =>
    rw [heq]
    simp only [List.forall_mem_cons]
    exact ⟨rfl, rfl, hreverse hread⟩
  · next heq =>
    rw [heq]
    exact List.forall_mem_cons.mpr ⟨rfl, hreverse hread⟩
  · next heq =>
    rw [heq]
    simp only [List.forall_mem_cons]
    exact ⟨rfl, rfl, hreverse hread⟩
  · next heq =>
    rw [heq]
    exact List.forall_mem_cons.mpr ⟨rfl, hreverse hread⟩
  · exact fun c hc => isNumeralChar_of_readPlain hread c (List.mem_reverse.mp hc)

/-! ### Operands -/

/-- **The grammar of operands.** What a token stands for where an operand of a kind is asked for. -/
inductive Denotes : OperandKind → String → Operand → Prop
  | register (kind : OperandKind) (s : Slot) : Denotes kind s.name (.register s.val)
  | cell (kind : OperandKind) {before text after : String} {v : Int}
      (hbefore : before.toList.all Text.isBlank = true)
      (hafter : after.toList.all Text.isBlank = true) (hread : readValue text = .ok v)
      (hv : 0 ≤ v) : Denotes kind ("[" ++ (before ++ (text ++ after)) ++ "]") (.cell v)
  | value {token : String} {v : Int} (hread : readValue token = .ok v) :
      Denotes .source token (.immediate v)
  /-- The name is not taken by a register or a number. -/
  | label {name : String} (hname : isLabelName name = true) (hregister : ∀ s : Slot, s.name ≠ name)
      (hread : ∀ v, readValue name ≠ .ok v) : Denotes .source name (.label name)

theorem ofName?_eq_some_iff {token : String} {s : Slot} :
    Slot.ofName? token = some s ↔ s.name = token := by
  constructor
  · intro h
    exact of_decide_eq_true (List.find?_some (p := fun s : Slot => decide (s.name = token)) h)
  · rintro rfl
    exact ofName?_name s

theorem ofName?_eq_none_iff {token : String} :
    Slot.ofName? token = none ↔ ∀ s : Slot, s.name ≠ token := by
  rw [Option.eq_none_iff_forall_ne_some]
  exact forall_congr' fun s => not_congr ofName?_eq_some_iff

theorem bracketed?_eq_some_iff {token inner : String} :
    bracketed? token = some inner ↔ token = "[" ++ inner ++ "]" := by
  constructor
  · intro h
    unfold bracketed? at h
    split at h
    · next rest htoken =>
      split at h
      · next cs hcs =>
        obtain rfl := Option.some.inj h
        apply String.toList_injective
        rw [htoken, ← List.reverse_reverse rest, hcs]
        simp
      · cases h
    · cases h
  · rintro rfl
    exact bracketed?_brackets inner

/-- The name of a register is no number. -/
theorem readValue_name_ne_ok (s : Slot) (v : Int) : readValue s.name ≠ .ok v := by
  have hnone : ∀ s : Slot, (readValue s.name).toOption = none := by decide
  intro h
  have hname := hnone s
  rw [h] at hname
  cases hname

/-- A cell is no number, and no name. -/
theorem bracketed?_eq_none {token : String} (h : ∀ c ∈ token.toList, isNumeralChar c = true) :
    bracketed? token = none := by
  rw [Option.eq_none_iff_forall_ne_some]
  intro inner hinner
  rw [bracketed?_eq_some_iff] at hinner
  have hmem : '[' ∈ token.toList := by simp [hinner]
  cases h '[' hmem

theorem isNumeralChar_of_isLabelName {name : String} (h : isLabelName name = true) :
    ∀ c ∈ name.toList, isNumeralChar c = true := by
  intro c hc
  simp [isNumeralChar, isLabelChar_of_mem h hc]

/-- **Cells**, with blanks just inside their brackets. -/
theorem cellOf?_eq_some_iff {inner : String} {o : Operand} :
    cellOf? inner = some o ↔
      ∃ before text after v, inner = before ++ (text ++ after) ∧
        before.toList.all Text.isBlank = true ∧ after.toList.all Text.isBlank = true ∧
        readValue text = .ok v ∧ 0 ≤ v ∧ o = .cell v := by
  constructor
  · intro h
    unfold cellOf? at h
    split at h
    · next v hread =>
      split at h
      · cases h
      · next hv =>
        obtain ⟨before, after, hinner, hbefore, hafter⟩ :=
          Text.exists_append_trimChars inner.toList
        refine ⟨String.ofList before, Text.trim inner, String.ofList after, v, ?_, ?_, ?_, hread,
          Int.not_lt.mp hv, (Option.some.inj h).symm⟩
        · apply String.toList_injective
          simpa [Text.trim] using hinner
        · simpa using hbefore
        · simpa using hafter
    · cases h
  · rintro ⟨before, text, after, v, rfl, hbefore, hafter, hread, hv, rfl⟩
    -- a number has no blanks of its own, so trimming gives it back
    have htrim : Text.trim (before ++ (text ++ after)) = text := by
      have hfree : ∀ c ∈ text.toList, Text.isBlank c = false := fun c hc =>
        isBlank_of_isNumeralChar (isNumeralChar_of_readValue hread c hc)
      rw [Text.trim, String.toList_append, String.toList_append,
        Text.trimChars_append hbefore hafter hfree, String.ofList_toList]
    simp only [cellOf?, htrim, hread, if_neg (Int.not_lt.mpr hv)]

/-- **A token that is read** denotes its operand. -/
theorem operandOf?_eq_some_iff {token : String} {o : Operand} :
    operandOf? token = some o ↔ Denotes .source token o := by
  constructor
  · -- a token is tried as a register, a cell, a number and a label in this order
    intro h
    unfold operandOf? at h
    split at h
    · next s hs =>
      obtain rfl := Option.some.inj h
      obtain rfl := ofName?_eq_some_iff.mp hs
      exact .register .source s
    · next hregister =>
      split at h
      · next inner hinner =>
        obtain rfl := bracketed?_eq_some_iff.mp hinner
        obtain ⟨before, text, after, v, rfl, hbefore, hafter, hread, hv, rfl⟩ :=
          cellOf?_eq_some_iff.mp h
        exact .cell .source hbefore hafter hread hv
      · split at h
        · next v hread =>
          obtain rfl := Option.some.inj h
          exact .value hread
        · next fault hread =>
          split at h
          · next hname =>
            obtain rfl := Option.some.inj h
            refine .label hname (ofName?_eq_none_iff.mp hregister) fun v hv => ?_
            rw [hv] at hread
            cases hread
          · cases h
  · -- each form has to get past those that are tried before it
    intro h
    unfold operandOf?
    cases h with
    | register _ s => rw [ofName?_name]
    | @cell _ before text after v hbefore hafter hread hv =>
      have htoken : ("[" ++ (before ++ (text ++ after)) ++ "]").toList =
          '[' :: ((before ++ (text ++ after)).toList ++ [']']) := by
        rw [String.toList_append, String.toList_append]
        rfl
      rw [ofName?_eq_none htoken (by decide) (by decide), bracketed?_brackets]
      exact cellOf?_eq_some_iff.mpr ⟨_, _, _, _, rfl, hbefore, hafter, hread, hv, rfl⟩
    | value hread =>
      have hregister : Slot.ofName? token = none := by
        rw [ofName?_eq_none_iff]
        rintro s rfl
        exact readValue_name_ne_ok s _ hread
      rw [hregister, bracketed?_eq_none (isNumeralChar_of_readValue hread)]
      simp only [hread]
    | label hname hregister hread =>
      rw [ofName?_eq_none_iff.mpr hregister,
        bracketed?_eq_none (isNumeralChar_of_isLabelName hname)]
      cases hvalue : readValue token with
      | ok v => exact absurd hvalue (hread v)
      | error fault => simp only [hname, if_true]

/-- A target is a register or a cell. -/
theorem denotes_target_iff {token : String} {o : Operand} :
    Denotes .target token o ↔ Denotes .source token o ∧ o.isWritable = true := by
  constructor
  · intro h
    cases h with
    | register _ s => exact ⟨.register .source s, rfl⟩
    | cell _ hbefore hafter hread hv => exact ⟨.cell .source hbefore hafter hread hv, rfl⟩
  · rintro ⟨h, hw⟩
    cases h with
    | register _ s => exact .register .target s
    | cell _ hbefore hafter hread hv => exact .cell .target hbefore hafter hread hv
    | value hread => cases hw
    | label hname hregister hread => cases hw

/-- **An operand is accepted** exactly if it denotes one of its kind. -/
theorem operandFor?_eq_some_iff {kind : OperandKind} {token : String} {o : Operand} :
    operandFor? kind token = some o ↔ Denotes kind token o := by
  cases kind with
  | source => exact operandOf?_eq_some_iff
  | target =>
    unfold operandFor?
    rw [Option.filter_eq_some_iff, operandOf?_eq_some_iff, denotes_target_iff]

theorem operandFor?_eq_none_iff {kind : OperandKind} {token : String} :
    operandFor? kind token = none ↔ ∀ o, ¬ Denotes kind token o := by
  rw [Option.eq_none_iff_forall_ne_some]
  exact forall_congr' fun o => not_congr operandFor?_eq_some_iff

/-! ### Instructions -/

/-- As far as there are kinds, each token denotes an operand of its kind. -/
def AllDenote (kinds : List OperandKind) (tokens : List String) : Prop :=
  ∀ x ∈ kinds.zip tokens, ∃ o, Denotes x.1 x.2 o

/-- **The grammar of instructions.** -/
inductive Spelled : List String → Instruction → Prop
  | mk {tokens : List String} {ins : Instruction} (hopcode : ins.opcode ∈ Opcode.executable)
      (hlength : tokens.length = ins.opcode.signature.length)
      (hoperands : List.Forall₂ (fun x o => Denotes x.1 x.2 o) (ins.opcode.signature.zip tokens)
        ins.operands) : Spelled (ins.opcode.mnemonic :: tokens) ins

/-- **What is wrong** with tokens that spell no instruction. -/
inductive Diagnosed : List String → LineFault → Prop
  | mnemonic {token : String} {rest : List String}
      (h : ∀ opcode ∈ Opcode.executable, opcode.mnemonic ≠ token) :
      Diagnosed (token :: rest) (.invalidInstruction token)
  /-- The tokens have run out. -/
  | missing {opcode : Opcode} {tokens : List String} (hopcode : opcode ∈ Opcode.executable)
      (hgood : AllDenote opcode.signature tokens)
      (hshort : tokens.length < opcode.signature.length) :
      Diagnosed (opcode.mnemonic :: tokens) (.missingOperand (tokens.length + 1))
  /-- The token is the leftmost bad one. -/
  | invalid {opcode : Opcode} {kind : OperandKind} {good rest : List String} {token : String}
      (hopcode : opcode ∈ Opcode.executable) (hgood : AllDenote opcode.signature good)
      (hkind : opcode.signature[good.length]? = some kind) (hbad : ∀ o, ¬ Denotes kind token o) :
      Diagnosed (opcode.mnemonic :: (good ++ token :: rest)) (.invalidOperand token)
  | extra {opcode : Opcode} {good rest : List String} {token : String}
      (hopcode : opcode ∈ Opcode.executable) (hgood : AllDenote opcode.signature good)
      (hfull : good.length = opcode.signature.length) :
      Diagnosed (opcode.mnemonic :: (good ++ token :: rest)) (.extraToken token)

theorem allDenote_nil (kinds : List OperandKind) : AllDenote kinds [] := by
  unfold AllDenote
  rw [List.zip_nil_right]
  exact fun x hx => nomatch hx

theorem allDenote_cons_iff {kind : OperandKind} {kinds : List OperandKind} {token : String}
    {tokens : List String} :
    AllDenote (kind :: kinds) (token :: tokens) ↔
      (∃ o, Denotes kind token o) ∧ AllDenote kinds tokens := by
  unfold AllDenote
  rw [List.zip_cons_cons, List.forall_mem_cons]

/-- **Tokens stand for operands** exactly if there are as many as kinds and each denotes its
operand. -/
theorem standFor_iff {kinds : List OperandKind} {tokens : List String} {os : List Operand} :
    StandFor kinds tokens os ↔
      tokens.length = kinds.length ∧
        List.Forall₂ (fun x o => Denotes x.1 x.2 o) (kinds.zip tokens) os := by
  constructor
  · intro h
    induction h with
    | nil => exact ⟨rfl, .nil⟩
    | cons head _ ih =>
      exact ⟨congrArg Nat.succ ih.1, .cons (operandFor?_eq_some_iff.mp head) ih.2⟩
  · rintro ⟨hlength, hos⟩
    induction kinds generalizing tokens os with
    | nil =>
      obtain rfl := List.length_eq_zero_iff.mp hlength
      cases hos
      exact .nil
    | cons kind kinds ih =>
      obtain ⟨token, tokens, rfl⟩ := List.exists_cons_of_length_eq_add_one hlength
      cases hos with
      | cons head tail =>
        exact .cons (operandFor?_eq_some_iff.mpr head) (ih (Nat.succ.inj hlength) tail)

theorem exists_standFor_iff {kinds : List OperandKind} {tokens : List String} :
    (∃ os, StandFor kinds tokens os) ↔ tokens.length = kinds.length ∧ AllDenote kinds tokens := by
  constructor
  · rintro ⟨os, h⟩
    induction h with
    | nil => exact ⟨rfl, allDenote_nil []⟩
    | cons head _ ih =>
      exact ⟨congrArg Nat.succ ih.1,
        allDenote_cons_iff.mpr ⟨⟨_, operandFor?_eq_some_iff.mp head⟩, ih.2⟩⟩
  · rintro ⟨hlength, hall⟩
    induction kinds generalizing tokens with
    | nil =>
      obtain rfl := List.length_eq_zero_iff.mp hlength
      exact ⟨[], .nil⟩
    | cons kind kinds ih =>
      obtain ⟨token, tokens, rfl⟩ := List.exists_cons_of_length_eq_add_one hlength
      obtain ⟨⟨o, ho⟩, hrest⟩ := allDenote_cons_iff.mp hall
      obtain ⟨os, hos⟩ := ih (Nat.succ.inj hlength) hrest
      exact ⟨o :: os, .cons (operandFor?_eq_some_iff.mpr ho) hos⟩

/-- Operands of some kinds are refused: the tokens run out before the kinds do, or there is a
leftmost bad one. The first kind has the given position. -/
def Refused (position : Nat) (kinds : List OperandKind) (tokens : List String)
    (fault : LineFault) : Prop :=
  (AllDenote kinds tokens ∧ tokens.length < kinds.length ∧
    fault = .missingOperand (position + tokens.length)) ∨
  ∃ good token rest kind, tokens = good ++ token :: rest ∧ AllDenote kinds good ∧
    kinds[good.length]? = some kind ∧ (∀ o, ¬ Denotes kind token o) ∧
    fault = .invalidOperand token

/-- The first token is the bad one. -/
theorem refused_of_not_denotes {position : Nat} {kind : OperandKind} {kinds : List OperandKind}
    {token : String} {tokens : List String} {fault : LineFault}
    (h : ∀ o, ¬ Denotes kind token o) :
    Refused position (kind :: kinds) (token :: tokens) fault ↔ fault = .invalidOperand token := by
  have hhead : ∀ {tokens : List String}, ¬ AllDenote (kind :: kinds) (token :: tokens) := by
    intro tokens hall
    obtain ⟨⟨o, ho⟩, -⟩ := allDenote_cons_iff.mp hall
    exact h o ho
  constructor
  · rintro (⟨hall, -⟩ | ⟨good, token', rest, kind', hsplit, hgood, -, -, hfault⟩)
    · exact absurd hall hhead
    · cases good with
      | nil =>
        obtain ⟨rfl, -⟩ := List.cons.inj hsplit
        exact hfault
      | cons t good =>
        obtain ⟨rfl, -⟩ := List.cons.inj hsplit
        exact absurd hgood hhead
  · rintro rfl
    exact Or.inr ⟨[], token, tokens, kind, rfl, allDenote_nil _, rfl, h, rfl⟩

/-- The first token is good, so it is a matter of the others. -/
theorem refused_of_denotes {position : Nat} {kind : OperandKind} {kinds : List OperandKind}
    {token : String} {tokens : List String} {fault : LineFault} {o : Operand}
    (h : Denotes kind token o) :
    Refused position (kind :: kinds) (token :: tokens) fault ↔
      Refused (position + 1) kinds tokens fault := by
  unfold Refused
  refine or_congr ?_ ⟨?_, ?_⟩
  · -- the position counts on with the tokens
    have hposition : position + (token :: tokens).length = position + 1 + tokens.length := by
      rw [List.length_cons]
      omega
    rw [allDenote_cons_iff, hposition, List.length_cons, List.length_cons,
      Nat.add_lt_add_iff_right]
    exact and_congr_left fun _ => and_iff_right ⟨o, h⟩
  · rintro ⟨good, token', rest, kind', hsplit, hgood, hkind, hbad, hfault⟩
    cases good with
    | nil =>
      obtain ⟨rfl, -⟩ := List.cons.inj hsplit
      obtain rfl := Option.some.inj hkind
      exact absurd h (hbad o)
    | cons t good =>
      obtain ⟨rfl, rfl⟩ := List.cons.inj hsplit
      exact ⟨good, token', rest, kind', rfl, (allDenote_cons_iff.mp hgood).2, hkind, hbad, hfault⟩
  · rintro ⟨good, token', rest, kind', rfl, hgood, hkind, hbad, hfault⟩
    exact ⟨token :: good, token', rest, kind', rfl, allDenote_cons_iff.mpr ⟨⟨o, h⟩, hgood⟩, hkind,
      hbad, hfault⟩

/-- **Operands are refused** from the left. -/
theorem parseOperands_eq_error_iff {position : Nat} {kinds : List OperandKind}
    {tokens : List String} {fault : LineFault} :
    parseOperands position kinds tokens = .error fault ↔
      Refused position kinds tokens fault := by
  induction kinds generalizing position tokens with
  | nil => simp [parseOperands, Refused]
  | cons kind kinds ih =>
    cases tokens with
    | nil => simp [parseOperands, Refused, AllDenote, eq_comm]
    | cons token tokens =>
      rw [parseOperands]
      cases hhead : operandFor? kind token with
      | none =>
        rw [refused_of_not_denotes (operandFor?_eq_none_iff.mp hhead)]
        simp [eq_comm]
      | some o =>
        rw [refused_of_denotes (operandFor?_eq_some_iff.mp hhead), ← ih]
        cases parseOperands (position + 1) kinds tokens with
        | ok x => simp
        | error fault' => simp

/-! ### Lines -/

theorem ofMnemonic?_eq_some_iff {token : String} {opcode : Opcode} :
    Opcode.ofMnemonic? token = some opcode ↔
      opcode ∈ Opcode.executable ∧ opcode.mnemonic = token := by
  constructor
  · intro h
    exact ⟨List.mem_of_find?_eq_some h,
      of_decide_eq_true (List.find?_some (p := fun op : Opcode => decide (op.mnemonic = token)) h)⟩
  · rintro ⟨hopcode, rfl⟩
    exact ofMnemonic?_mnemonic opcode hopcode

theorem parseInstruction_spelled {mnemonic : String} {tokens : List String} {ins : Instruction} :
    parseInstruction mnemonic tokens = .ok ins ↔ Spelled (mnemonic :: tokens) ins := by
  rw [parseInstruction_eq_ok_iff, ofMnemonic?_eq_some_iff, standFor_iff]
  constructor
  · rintro ⟨⟨hopcode, rfl⟩, hlength, hos⟩
    exact .mk hopcode hlength hos
  · intro h
    cases h with
    | mk hopcode hlength hos => exact ⟨⟨hopcode, rfl⟩, hlength, hos⟩

theorem parseInstruction_diagnosed {mnemonic : String} {tokens : List String} {fault : LineFault} :
    parseInstruction mnemonic tokens = .error fault ↔ Diagnosed (mnemonic :: tokens) fault := by
  constructor
  · intro h
    unfold parseInstruction at h
    split at h
    · next hnone =>
      obtain rfl := Except.error.inj h
      refine .mnemonic fun opcode hopcode hname => ?_
      rw [ofMnemonic?_eq_some_iff.mpr ⟨hopcode, hname⟩] at hnone
      cases hnone
    · next opcode hsome =>
      obtain ⟨hopcode, rfl⟩ := ofMnemonic?_eq_some_iff.mp hsome
      -- the operands are parsed before anything is said of what is left over
      split at h
      · next fault' hrefused =>
        obtain rfl := Except.error.inj h
        rcases parseOperands_eq_error_iff.mp hrefused with ⟨hgood, hshort, rfl⟩ |
          ⟨good, token, rest, kind, rfl, hgood, hkind, hbad, rfl⟩
        · rw [Nat.add_comm]
          exact .missing hopcode hgood hshort
        · exact .invalid hopcode hgood hkind hbad
      · next os token rest hos =>
        obtain rfl := Except.error.inj h
        obtain ⟨good, rfl, hstand⟩ := parseOperands_eq_ok_iff.mp hos
        obtain ⟨hfull, hgood⟩ := exists_standFor_iff.mp ⟨os, hstand⟩
        exact .extra hopcode hgood hfull
      · cases h
  · intro h
    unfold parseInstruction
    cases h with
    | mnemonic hunknown =>
      have hnone : Opcode.ofMnemonic? mnemonic = none := by
        rw [Option.eq_none_iff_forall_ne_some]
        intro opcode hsome
        obtain ⟨hopcode, hname⟩ := ofMnemonic?_eq_some_iff.mp hsome
        exact hunknown opcode hopcode hname
      rw [hnone]
    | @missing opcode tokens hopcode hgood hshort =>
      have hrefused : parseOperands 1 opcode.signature tokens
          = .error (.missingOperand (tokens.length + 1)) :=
        parseOperands_eq_error_iff.mpr (Or.inl ⟨hgood, hshort, by rw [Nat.add_comm]⟩)
      simp only [ofMnemonic?_mnemonic opcode hopcode, hrefused]
    | @invalid opcode kind good rest token hopcode hgood hkind hbad =>
      have hrefused : parseOperands 1 opcode.signature (good ++ token :: rest)
          = .error (.invalidOperand token) :=
        parseOperands_eq_error_iff.mpr
          (Or.inr ⟨good, token, rest, kind, rfl, hgood, hkind, hbad, rfl⟩)
      simp only [ofMnemonic?_mnemonic opcode hopcode, hrefused]
    | @extra opcode good rest token hopcode hgood hfull =>
      obtain ⟨os, hstand⟩ := exists_standFor_iff.mpr ⟨hfull, hgood⟩
      have hos : parseOperands 1 opcode.signature (good ++ token :: rest)
          = .ok (os, token :: rest) :=
        parseOperands_eq_ok_iff.mpr ⟨good, rfl, hstand⟩
      simp only [ofMnemonic?_mnemonic opcode hopcode, hos]

/-- The tokens of a line are those that set its labels, as many as there are at the front, and the
rest. -/
structure Labelled (tokens names rest : List String) : Prop where
  split : tokens = names.map (· ++ ":") ++ rest
  names : ∀ name ∈ names, isLabelName name = true
  /-- No label could be added to them. -/
  longest : ∀ name, isLabelName name = true → rest.head? ≠ some (name ++ ":")

namespace Line

/-- What is wrong with a line, if there is something. -/
def fault? (l : Line) : Option LineFault :=
  match l.statement with
  | .malformed fault => some fault
  | _ => none

theorem fault?_eq_some_iff {l : Line} {fault : LineFault} :
    l.fault? = some fault ↔ l.statement = .malformed fault := by
  obtain ⟨labels, statement⟩ := l
  cases statement with
  | none => simp [fault?]
  | instruction ins => simp [fault?]
  | malformed fault' => simp [fault?]

theorem fault?_eq_none_iff {l : Line} :
    l.fault? = none ↔ l.statement = .none ∨ ∃ ins, l.instruction? = some ins := by
  obtain ⟨labels, statement⟩ := l
  cases statement with
  | none => simp [fault?]
  | instruction ins => simp [fault?, instruction?]
  | malformed fault => simp [fault?, instruction?]

/-- The parts of a statement exclude each other. -/
theorem isSome_instruction?_iff {l : Line} (h : l.statement ≠ .none) :
    l.instruction?.isSome ↔ l.fault? = none := by
  rw [fault?_eq_none_iff, or_iff_right h, Option.isSome_iff_exists]

variable {tokens : List String}

/-- A line has a statement exactly if it has tokens after its labels. -/
theorem statement_eq_none_iff : (ofTokens tokens).statement = .none ↔ statementTokens tokens = [] := by
  rw [statement_ofTokens]
  cases statementTokens tokens with
  | nil => simp
  | cons mnemonic rest => cases hparse : parseInstruction mnemonic rest <;> simp [hparse]

/-- **The instruction of a line** is the one that its tokens spell. -/
theorem instruction?_iff_spelled {ins : Instruction} :
    (ofTokens tokens).instruction? = some ins ↔ Spelled (statementTokens tokens) ins := by
  rw [instruction?_eq_some_iff, statement_ofTokens]
  cases statementTokens tokens with
  | nil => exact ⟨nofun, nofun⟩
  | cons mnemonic rest =>
    rw [← parseInstruction_spelled]
    cases hparse : parseInstruction mnemonic rest with
    | ok ins' => simp [hparse]
    | error fault => simp [hparse]

/-- **The fault of a line** is the one that its tokens are diagnosed with. -/
theorem fault?_iff_diagnosed {fault : LineFault} :
    (ofTokens tokens).fault? = some fault ↔ Diagnosed (statementTokens tokens) fault := by
  rw [fault?_eq_some_iff, statement_ofTokens]
  cases statementTokens tokens with
  | nil => exact ⟨nofun, nofun⟩
  | cons mnemonic rest =>
    rw [← parseInstruction_diagnosed]
    cases hparse : parseInstruction mnemonic rest with
    | ok ins => simp [hparse]
    | error fault' => simp [hparse]

end Line

theorem labelled_ofTokens (tokens : List String) :
    Labelled tokens (Line.ofTokens tokens).labels (statementTokens tokens) := by
  induction tokens with
  | nil =>
    refine ⟨rfl, List.forall_mem_nil _, ?_⟩
    intro name _ hhead
    cases hhead
  | cons token tokens ih =>
    rw [Line.ofTokens, statementTokens, List.dropWhile_cons]
    cases hlabel : labelOf? token with
    | some name =>
      obtain ⟨rfl, hname⟩ := labelOf?_eq_some_iff.mp hlabel
      exact ⟨congrArg (_ :: ·) ih.split, List.forall_mem_cons.mpr ⟨hname, ih.names⟩, ih.longest⟩
    | none =>
      -- the first token that sets no label ends the labels, whatever it is
      have hstop : Labelled (token :: tokens) [] (token :: tokens) := by
        refine ⟨rfl, List.forall_mem_nil _, ?_⟩
        intro name hname hhead
        rw [labelOf?_eq_some_iff.mpr ⟨Option.some.inj hhead, hname⟩] at hlabel
        cases hlabel
      cases parseInstruction token tokens with
      | ok ins => exact hstop
      | error fault => exact hstop

/-- **A line is parsed by its grammar.** Its labels are as many tokens at the front as set a label.
The tokens after them are an instruction exactly if they spell it, and then there is no fault, nor is
there one if no tokens are left. Otherwise the fault is the one that they are diagnosed with. -/
theorem line_grammar (tokens : List String) :
    ∃ rest, Labelled tokens (Line.ofTokens tokens).labels rest ∧
      ((Line.ofTokens tokens).fault? = none ↔ rest = [] ∨ ∃ ins, Spelled rest ins) ∧
      (∀ ins, (Line.ofTokens tokens).instruction? = some ins ↔ Spelled rest ins) ∧
      (∀ fault, (Line.ofTokens tokens).fault? = some fault ↔ Diagnosed rest fault) ∧
      (rest ≠ [] →
        ((Line.ofTokens tokens).instruction?.isSome ↔ (Line.ofTokens tokens).fault? = none)) := by
  refine ⟨statementTokens tokens, labelled_ofTokens tokens, ?_, fun ins =>
    Line.instruction?_iff_spelled, fun fault => Line.fault?_iff_diagnosed, fun hrest => ?_⟩
  · rw [Line.fault?_eq_none_iff, Line.statement_eq_none_iff]
    exact or_congr_right (exists_congr fun ins => Line.instruction?_iff_spelled)
  · exact Line.isSome_instruction?_iff (mt Line.statement_eq_none_iff.mp hrest)

example : Line.ofTokens ["a:", "b:", "mov", "[ 10h\t]", "ah"] =
    ⟨["a", "b"], .instruction ⟨.mov, [.cell 16, .immediate 10]⟩⟩ := by decide

example : Line.ofTokens ["mov", "7", "1b", "c:"] = ⟨[], .malformed (.invalidOperand "7")⟩ := by
  decide

end Assembly

end CellMachine
