import CellMachine.Proofs.LabelReferences
import CellMachine.Proofs.Notation
import Mathlib.Data.Nat.Digits.Defs

/-!
# The notations of literals

A literal is written in one of seven notations. `Literal` is this grammar: it says which characters
stand where and which number they denote, by the places of the digits, and without the order in
which endings and marks are looked for. Reading a literal accepts exactly what the grammar has, if
the number is a word (`readValue_eq_ok_iff_literal`).

The order matters in one place. The ending `b` is looked for before the mark `0x`, and `b` is a
digit of base 16 as well, so a number after the mark may not end in it. Nothing else overlaps: `h`
is no digit, and no notation but that of the mark has an `x`.

What is written in the usual way is therefore read back (`readValue_of_mem_renderings`), with that
one exception: a number after `0x` whose last digit is eleven is refused
(`readValue_markedHex_ne_ok`). `literals_read_exactly` puts the two together.
-/

namespace CellMachine

namespace Text

variable {radix : Nat}

/-! ### Digits and their places -/

/-- A character is the digit of a value in a base. Letters may be of either case. -/
def IsDigitOf (radix : Nat) (c : Char) (d : Nat) : Prop :=
  d < radix ∧ d < 16 ∧ (c = Nat.digitChar d ∨ c = (Nat.digitChar d).toUpper)

/-- Characters are the digits of a number, the highest place first. -/
def IsNumeral (radix : Nat) (chars : List Char) (n : Nat) : Prop :=
  chars ≠ [] ∧ ∃ ds, List.Forall₂ (IsDigitOf radix) chars ds ∧ Nat.ofDigits radix ds.reverse = n

theorem digitValue?_eq_some_iff {c : Char} {d : Nat} :
    digitValue? radix c = some d ↔ IsDigitOf radix c d := by
  constructor
  · intro h
    obtain ⟨hvalue, hlt⟩ := Option.filter_eq_some_iff.mp h
    refine ⟨of_decide_eq_true hlt, ?_⟩
    -- a character is found again by its place in one of three ranges
    have hdecimal : ∀ k < 10, Nat.digitChar k = Char.ofNat (48 + k) := by decide
    have hsmall : ∀ k < 6, Nat.digitChar (k + 10) = Char.ofNat (97 + k) := by decide
    have hcapital : ∀ k < 6, (Nat.digitChar (k + 10)).toUpper = Char.ofNat (65 + k) := by decide
    split at hvalue
    · next hc =>
      have hlow : 48 ≤ c.toNat := hc.1
      have hhigh : c.toNat ≤ 57 := hc.2
      obtain rfl : c.toNat - 48 = d := Option.some.inj hvalue
      refine ⟨by omega, Or.inl ?_⟩
      rw [hdecimal _ (by omega), Nat.add_sub_cancel' hlow, Char.ofNat_toNat]
    · split at hvalue
      · next hc =>
        have hlow : 97 ≤ c.toNat := hc.1
        have hhigh : c.toNat ≤ 102 := hc.2
        obtain rfl : c.toNat - 97 + 10 = d := Option.some.inj hvalue
        refine ⟨by omega, Or.inl ?_⟩
        rw [hsmall _ (by omega), Nat.add_sub_cancel' hlow, Char.ofNat_toNat]
      · split at hvalue
        · next hc =>
          have hlow : 65 ≤ c.toNat := hc.1
          have hhigh : c.toNat ≤ 70 := hc.2
          obtain rfl : c.toNat - 65 + 10 = d := Option.some.inj hvalue
          refine ⟨by omega, Or.inr ?_⟩
          rw [hcapital _ (by omega), Nat.add_sub_cancel' hlow, Char.ofNat_toNat]
        · cases hvalue
  · rintro ⟨hradix, hd, hc⟩
    -- the base only decides which values are allowed
    have hvalue : ∀ d < 16, digitValue? 16 (Nat.digitChar d) = some d ∧
        digitValue? 16 (Nat.digitChar d).toUpper = some d := by decide
    have hread : digitValue? 16 c = some d := by
      rcases hc with rfl | rfl
      · exact (hvalue d hd).1
      · exact (hvalue d hd).2
    exact Option.filter_eq_some_iff.mpr
      ⟨(Option.filter_eq_some_iff.mp hread).1, decide_eq_true hradix⟩

theorem forall₂_isDigitOf {chars : List Char} {ds : List Nat}
    (h : List.Forall₂ (IsDigitOf radix) chars ds) :
    chars.all (isDigit radix) = true ∧ numberOf radix chars = Nat.ofDigits radix ds.reverse := by
  induction h with
  | nil => exact ⟨rfl, rfl⟩
  | @cons c d chars ds hc hrest ih =>
    have hd := digitValue?_eq_some_iff.mpr hc
    have hlength : chars.length = ds.length := hrest.length_eq
    refine ⟨?_, ?_⟩
    · rw [List.all_cons, ih.1, isDigit, hd]
      rfl
    · rw [numberOf_cons hd, ih.2, List.reverse_cons, Nat.ofDigits_append, Nat.ofDigits_singleton,
        List.length_reverse, hlength, Nat.add_comm, Nat.mul_comm]
      rfl

/-- Characters that are all digits are the digits of the number that they are read as. -/
theorem isNumeral_iff {chars : List Char} {n : Nat} :
    IsNumeral radix chars n ↔
      chars ≠ [] ∧ chars.all (isDigit radix) = true ∧ numberOf radix chars = n := by
  refine and_congr_right fun _ => ?_
  constructor
  · rintro ⟨ds, hds, rfl⟩
    exact forall₂_isDigitOf hds
  · rintro ⟨hall, rfl⟩
    have hds : List.Forall₂ (IsDigitOf radix) chars
        (chars.map fun c => (digitValue? radix c).getD 0) := by
      rw [List.forall₂_map_right_iff, List.forall₂_same]
      intro c hc
      obtain ⟨d, hd⟩ := Option.isSome_iff_exists.mp (List.all_eq_true.mp hall c hc)
      rw [hd]
      exact digitValue?_eq_some_iff.mp hd
    exact ⟨_, hds, (forall₂_isDigitOf hds).2.symm⟩

end Text

namespace Assembly

open Text

/-! ### The grammar -/

/-- A sign may stand before the digits of a number. -/
inductive Sign where
  | none
  | plus
  | minus
  deriving DecidableEq, Repr

namespace Sign

def chars : Sign → List Char
  | .none => []
  | .plus => ['+']
  | .minus => ['-']

/-- The number with the sign in front. -/
def on : Sign → Nat → Int
  | .minus, n => -n
  | _, n => n

end Sign

/-- The base that a letter at the end of a literal stands for. -/
def baseOf? : Char → Option Nat
  | 'h' => some 16
  | 'b' => some 2
  | _ => none

/-- **The notations of a literal**, with the number that each denotes. -/
inductive Literal : List Char → Int → Prop
  | ended {letter : Char} {radix : Nat} (hletter : baseOf? letter = some radix) (s : Sign)
      {digits : List Char} {n : Nat} (h : IsNumeral radix digits n) :
      Literal (s.chars ++ digits ++ [letter]) (s.on n)
  | barred {letter : Char} {radix : Nat} (hletter : baseOf? letter = some radix) (s : Sign)
      {digits : List Char} {n : Nat} (h : IsNumeral radix digits n) :
      Literal (s.chars ++ digits ++ ['|', letter]) (s.on n)
  /-- A sign may follow the mark, and the last digit is no small `b`. -/
  | marked (s : Sign) {digits : List Char} {n : Nat} (h : IsNumeral 16 digits n)
      (hlast : digits.getLast? ≠ some 'b') : Literal ('0' :: 'x' :: (s.chars ++ digits)) (s.on n)
  /-- The minus before the mark is for all that follows. -/
  | minusMarked (s : Sign) {digits : List Char} {n : Nat} (h : IsNumeral 16 digits n)
      (hlast : digits.getLast? ≠ some 'b') :
      Literal ('-' :: '0' :: 'x' :: (s.chars ++ digits)) (-s.on n)
  | decimal (s : Sign) {digits : List Char} {n : Nat} (h : IsNumeral 10 digits n)
      (hshort : digits.length ≤ digitLimit) : Literal (s.chars ++ digits) (s.on n)

/-! ### Signs and digits -/

section Signed

variable {radix : Nat} {text : List Char} {v : Int}

/-- Digits are no signs, so the sign can be told from them. -/
theorem splitSign_append (s : Sign) {digits : List Char} (h : digits.all (isDigit radix) = true) :
    splitSign (s.chars ++ digits) = (s == .minus, digits) := by
  cases s with
  | plus => rfl
  | minus => rfl
  | none =>
    have hsign : ∀ c ∈ digits, c ≠ '-' ∧ c ≠ '+' := by
      intro c hc
      have hdigit := List.all_eq_true.mp h c hc
      constructor
      · rintro rfl
        cases hdigit
      · rintro rfl
        cases hdigit
    show splitSign digits = (false, digits)
    unfold splitSign
    split
    · exact absurd rfl (hsign '-' List.mem_cons_self).1
    · exact absurd rfl (hsign '+' List.mem_cons_self).2
    · rfl

theorem exists_sign (text : List Char) :
    ∃ s : Sign, text = s.chars ++ (splitSign text).2 ∧ (splitSign text).1 = (s == .minus) := by
  unfold splitSign
  split
  · exact ⟨.minus, rfl, rfl⟩
  · exact ⟨.plus, rfl, rfl⟩
  · exact ⟨.none, rfl, rfl⟩

/-- **A signed number** is an optional sign and digits. Only in base 10 their count is limited. -/
theorem readSigned_eq_ok_iff :
    readSigned radix text = .ok v ↔
      ∃ (s : Sign) (digits : List Char) (n : Nat), text = s.chars ++ digits ∧
        IsNumeral radix digits n ∧ (radix = 10 → digits.length ≤ digitLimit) ∧ s.on n = v := by
  have hon : ∀ (s : Sign) (n : Nat), (if (s == .minus) = true then -(n : Int) else n) = s.on n := by
    intro s n
    cases s with
    | none => rfl
    | plus => rfl
    | minus => rfl
  constructor
  · intro h
    obtain ⟨s, htext, hminus⟩ := exists_sign text
    unfold readSigned at h
    dsimp only at h
    split at h
    · cases h
    · next hdigits =>
      rw [not_or, Decidable.not_not, List.isEmpty_iff] at hdigits
      split at h
      · cases h
      · next hlimit =>
        refine ⟨s, (splitSign text).2, _, htext, isNumeral_iff.mpr ⟨hdigits.1, hdigits.2, rfl⟩,
          fun hten => Nat.le_of_not_lt fun hlong => hlimit ⟨hten, hlong⟩, ?_⟩
        rw [← hon, ← hminus]
        exact Except.ok.inj h
  · rintro ⟨s, digits, n, rfl, hnumeral, hlimit, rfl⟩
    obtain ⟨hne, hdigits, rfl⟩ := isNumeral_iff.mp hnumeral
    have hlong : ¬ (radix = 10 ∧ digits.length > digitLimit) := fun h =>
      absurd h.2 (Nat.not_lt.mpr (hlimit h.1))
    unfold readSigned
    rw [splitSign_append s hdigits]
    dsimp only
    rw [if_neg (by simp [hne, hdigits]), if_neg hlong, hon]

/-- What is read has no characters but a sign and digits. -/
theorem readSigned_ne_ok {c : Char} (hc : c ∈ text) (hsign : c ≠ '+' ∧ c ≠ '-')
    (hdigit : isDigit radix c = false) : readSigned radix text ≠ .ok v := by
  intro h
  obtain ⟨s, digits, n, rfl, hnumeral, -, -⟩ := readSigned_eq_ok_iff.mp h
  rcases List.mem_append.mp hc with hc | hc
  · cases s with
    | none => cases hc
    | plus => exact hsign.1 (List.mem_singleton.mp hc)
    | minus => exact hsign.2 (List.mem_singleton.mp hc)
  · rw [List.all_eq_true.mp (isNumeral_iff.mp hnumeral).2.1 c hc] at hdigit
    cases hdigit

end Signed

/-! ### The grammar is read -/

section Reading

variable {text : List Char} {v : Int}

/-- Without an ending, a literal is in base 16 after a mark or in base 10. An `x` is no digit of
base 10, so the mark can be told from the digits. -/
theorem readPlain_eq_ok_iff :
    readPlain text = .ok v ↔
      (∃ rest, text = '0' :: 'x' :: rest ∧ readSigned 16 rest = .ok v) ∨
      (∃ rest, text = '-' :: '0' :: 'x' :: rest ∧ readSigned 16 rest = .ok (-v)) ∨
      readSigned 10 text = .ok v := by
  have hx : ∀ {text : List Char}, 'x' ∈ text → readSigned 10 text ≠ .ok v := fun h =>
    readSigned_ne_ok h (by decide) rfl
  unfold readPlain
  split
  · next rest => simp [hx]
  · next rest =>
    have hneg : (readSigned 16 rest).map (- ·) = .ok v ↔ readSigned 16 rest = .ok (-v) := by
      cases readSigned 16 rest with
      | error fault => simp [Except.map]
      | ok n =>
        simp only [Except.map, Except.ok.injEq]
        omega
    simp [hx, hneg]
  · next hmark hminus =>
    constructor
    · exact fun h => Or.inr (Or.inr h)
    · rintro (⟨rest, rfl, -⟩ | ⟨rest, rfl, -⟩ | h)
      · exact absurd rfl (hmark rest)
      · exact absurd rfl (hminus rest)
      · exact h

theorem baseOf?_eq_some {letter : Char} {radix : Nat} (h : baseOf? letter = some radix) :
    (letter = 'h' ∧ radix = 16) ∨ (letter = 'b' ∧ radix = 2) := by
  unfold baseOf? at h
  split at h
  · exact Or.inl ⟨rfl, (Option.some.inj h).symm⟩
  · exact Or.inr ⟨rfl, (Option.some.inj h).symm⟩
  · cases h

/-- The characters without a bar at the end. -/
def withoutBar (front : List Char) : List Char :=
  match front.reverse with
  | '|' :: digits => digits.reverse
  | _ => front

/-- The letter for a base decides how what is before it is read. -/
theorem readLiteral_concat {letter : Char} {radix : Nat} (h : baseOf? letter = some radix)
    (front : List Char) :
    readLiteral (front ++ [letter]) = readSigned radix (withoutBar front) := by
  unfold readLiteral withoutBar
  rw [List.reverse_concat]
  -- either letter is followed by a bar or not
  cases hfront : front.reverse with
  | nil =>
    rcases baseOf?_eq_some h with ⟨rfl, rfl⟩ | ⟨rfl, rfl⟩ <;>
      simp [List.reverse_eq_nil_iff.mp hfront]
  | cons c digits =>
    by_cases hc : c = '|'
    · subst hc
      rcases baseOf?_eq_some h with ⟨rfl, rfl⟩ | ⟨rfl, rfl⟩ <;> rfl
    · rcases baseOf?_eq_some h with ⟨rfl, rfl⟩ | ⟨rfl, rfl⟩ <;>
        simp [hc, List.reverse_eq_cons_iff.mp hfront]

/-- Without a letter for its base at the end, a literal is plain. -/
theorem readLiteral_of_plain (h : ∀ c, text.getLast? = some c → baseOf? c = none) :
    readLiteral text = readPlain text := by
  have hletter : ∀ {letter : Char} {rest : List Char}, text.reverse = letter :: rest →
      baseOf? letter = none := by
    intro letter rest hreverse
    refine h letter ?_
    rw [List.reverse_eq_cons_iff.mp hreverse, List.getLast?_concat]
  unfold readLiteral
  -- the letters for a base are excluded
  split
  · next hreverse => cases hletter hreverse
  · next hreverse => cases hletter hreverse
  · next hreverse => cases hletter hreverse
  · next hreverse => cases hletter hreverse
  · rfl

/-- A bar is no digit, so it is the one of the ending. -/
theorem readSigned_withoutBar {radix : Nat} {front : List Char} :
    readSigned radix (withoutBar front) = .ok v ↔
      readSigned radix front = .ok v ∨
        ∃ digits, front = digits ++ ['|'] ∧ readSigned radix digits = .ok v := by
  unfold withoutBar
  split
  · next digits hfront =>
    obtain rfl := List.reverse_eq_cons_iff.mp hfront
    have hbar : readSigned radix (digits.reverse ++ ['|']) ≠ .ok v :=
      readSigned_ne_ok (List.mem_append_right _ (List.mem_singleton_self '|')) (by decide) rfl
    simp [hbar]
  · next hbar =>
    constructor
    · exact Or.inl
    · rintro (h | ⟨digits, rfl, -⟩)
      · exact h
      · exact absurd List.reverse_concat (hbar digits.reverse)

/-- Digits at the end of a text have its last character. -/
theorem getLast?_append_of_isNumeral {radix n : Nat} {digits : List Char}
    (h : IsNumeral radix digits n) (front : List Char) :
    ∃ c, (front ++ digits).getLast? = some c ∧ digits.getLast? = some c ∧
      isDigit radix c = true := by
  obtain ⟨hne, hall, -⟩ := isNumeral_iff.mp h
  have hlast := List.getLast?_eq_some_getLast hne
  refine ⟨digits.getLast hne, ?_, hlast, List.all_eq_true.mp hall _ (List.getLast_mem hne)⟩
  rw [List.getLast?_append, hlast, Option.some_or]

/-- After a mark, digits that do not end in a small `b` end in no letter for a base. -/
theorem baseOf?_of_marked {n : Nat} {digits : List Char} (h : IsNumeral 16 digits n)
    (hlast : digits.getLast? ≠ some 'b') (front : List Char) (c : Char)
    (hc : (front ++ digits).getLast? = some c) : baseOf? c = none := by
  obtain ⟨d, hd, hdigits, hdigit⟩ := getLast?_append_of_isNumeral h front
  obtain rfl := Option.some.inj (hd.symm.trans hc)
  cases hbase : baseOf? d with
  | none => rfl
  | some radix =>
    rcases baseOf?_eq_some hbase with ⟨rfl, -⟩ | ⟨rfl, -⟩
    · cases hdigit
    · exact absurd hdigits hlast

/-- No digit of base 10 is a letter for a base. -/
theorem baseOf?_of_decimal {n : Nat} {digits : List Char} (h : IsNumeral 10 digits n)
    (front : List Char) (c : Char) (hc : (front ++ digits).getLast? = some c) :
    baseOf? c = none := by
  obtain ⟨d, hd, -, hdigit⟩ := getLast?_append_of_isNumeral h front
  obtain rfl := Option.some.inj (hd.symm.trans hc)
  cases hbase : baseOf? d with
  | none => rfl
  | some radix =>
    rcases baseOf?_eq_some hbase with ⟨rfl, -⟩ | ⟨rfl, -⟩ <;> cases hdigit

/-- A text that is read is a literal. -/
theorem literal_of_readLiteral (h : readLiteral text = .ok v) : Literal text v := by
  rcases List.eq_nil_or_concat text with rfl | ⟨front, c, htext⟩
  · exact absurd h (readSigned_nil_ne_ok 10 v)
  rw [List.concat_eq_append] at htext
  cases hc : baseOf? c with
  | some radix =>
    rw [htext, readLiteral_concat hc, readSigned_withoutBar, readSigned_eq_ok_iff] at h
    rw [htext]
    rcases h with ⟨s, digits, n, rfl, hdigits, -, rfl⟩ | ⟨front, rfl, h⟩
    · exact .ended hc s hdigits
    · obtain ⟨s, digits, n, rfl, hdigits, -, rfl⟩ := readSigned_eq_ok_iff.mp h
      rw [List.append_assoc _ ['|'] [c]]
      exact .barred hc s hdigits
  | none =>
    have hlast : text.getLast? = some c := by rw [htext, List.getLast?_concat]
    -- a small `b` at the end would have been taken for a base
    have hmarked : ∀ {front digits : List Char} {n : Nat}, text = front ++ digits →
        IsNumeral 16 digits n → digits.getLast? ≠ some 'b' := by
      rintro front digits n rfl hdigits hb
      obtain ⟨d, hd, hd', -⟩ := getLast?_append_of_isNumeral hdigits front
      obtain rfl := Option.some.inj (hd.symm.trans hlast)
      obtain rfl := Option.some.inj (hd'.symm.trans hb)
      cases hc
    have hplain : ∀ d, text.getLast? = some d → baseOf? d = none := by
      rintro d hd
      obtain rfl := Option.some.inj (hlast.symm.trans hd)
      exact hc
    rw [readLiteral_of_plain hplain, readPlain_eq_ok_iff] at h
    rcases h with ⟨rest, hrest, h⟩ | ⟨rest, hrest, h⟩ | h
    · obtain ⟨s, digits, n, rfl, hdigits, -, rfl⟩ := readSigned_eq_ok_iff.mp h
      have hb := @hmarked ('0' :: 'x' :: s.chars) digits n hrest hdigits
      rw [hrest]
      exact .marked s hdigits hb
    · obtain ⟨s, digits, n, rfl, hdigits, -, hv⟩ := readSigned_eq_ok_iff.mp h
      have hb := @hmarked ('-' :: '0' :: 'x' :: s.chars) digits n hrest hdigits
      rw [hrest, ← Int.neg_neg v, ← hv]
      exact .minusMarked s hdigits hb
    · obtain ⟨s, digits, n, rfl, hdigits, hshort, rfl⟩ := readSigned_eq_ok_iff.mp h
      exact .decimal s hdigits (hshort rfl)

/-- A literal is read as the number that it denotes. -/
theorem readLiteral_of_literal (h : Literal text v) : readLiteral text = .ok v := by
  have hsigned : ∀ {radix n : Nat} {digits : List Char} (s : Sign), IsNumeral radix digits n →
      (radix = 10 → digits.length ≤ digitLimit) →
      readSigned radix (s.chars ++ digits) = .ok (s.on n) := fun s hdigits hshort =>
    readSigned_eq_ok_iff.mpr ⟨s, _, _, rfl, hdigits, hshort, rfl⟩
  have hten : ∀ {letter : Char} {radix : Nat}, baseOf? letter = some radix → radix ≠ 10 := by
    rintro letter radix hletter rfl
    rcases baseOf?_eq_some hletter with ⟨-, h⟩ | ⟨-, h⟩ <;> cases h
  cases h with
  | ended hletter s hdigits =>
    rw [readLiteral_concat hletter, readSigned_withoutBar]
    exact Or.inl (hsigned s hdigits fun h => absurd h (hten hletter))
  | @barred letter _ hletter s digits _ hdigits =>
    have hbar : s.chars ++ digits ++ ['|', letter] = s.chars ++ digits ++ ['|'] ++ [letter] := by
      rw [List.append_assoc _ ['|'], List.singleton_append]
    rw [hbar, readLiteral_concat hletter, readSigned_withoutBar]
    exact Or.inr ⟨_, rfl, hsigned s hdigits fun h => absurd h (hten hletter)⟩
  | @marked s digits _ hdigits hlast =>
    have hplain := baseOf?_of_marked hdigits hlast ('0' :: 'x' :: s.chars)
    simp only [List.cons_append] at hplain
    rw [readLiteral_of_plain hplain, readPlain_eq_ok_iff]
    exact Or.inl ⟨_, rfl, hsigned s hdigits nofun⟩
  | @minusMarked s digits _ hdigits hlast =>
    have hplain := baseOf?_of_marked hdigits hlast ('-' :: '0' :: 'x' :: s.chars)
    simp only [List.cons_append] at hplain
    rw [readLiteral_of_plain hplain, readPlain_eq_ok_iff, Int.neg_neg]
    exact Or.inr (Or.inl ⟨_, rfl, hsigned s hdigits nofun⟩)
  | @decimal s digits _ hdigits hshort =>
    have hplain := baseOf?_of_decimal hdigits s.chars
    rw [readLiteral_of_plain hplain, readPlain_eq_ok_iff]
    exact Or.inr (Or.inr (hsigned s hdigits fun _ => hshort))

/-- **Reading follows the grammar.** -/
theorem readValue_eq_ok_iff_literal {text : String} :
    readValue text = .ok v ↔ Literal text.toList v ∧ Word.InRange v := by
  rw [readValue_eq_ok_iff]
  exact and_congr_left fun _ => ⟨literal_of_readLiteral, readLiteral_of_literal⟩

end Reading

/-! ### Numbers that are written -/

/-- A minus stands before a negative number. -/
def signOf (v : Int) : Sign := if v < 0 then .minus else .none

/-- A number with these digits and an ending. -/
def written (v : Int) (digits : List Char) (ending : String) : String :=
  String.ofList ((signOf v).chars ++ digits) ++ ending

/-- A number as it is usually written without a mark: in base 10, in base 16 with small and with
capital letters, and in base 2. -/
def renderings (v : Int) : List String :=
  [toString v,
    written v (Nat.toDigits 16 v.natAbs) "h", written v (Nat.toDigits 16 v.natAbs) "|h",
    written v (upperDigits 16 v.natAbs) "h", written v (upperDigits 16 v.natAbs) "|h",
    written v (Nat.toDigits 2 v.natAbs) "b", written v (Nat.toDigits 2 v.natAbs) "|b"]

/-- A number in base 16 with its mark, in small letters. -/
def markedHex (v : Int) : String :=
  String.ofList ((signOf v).chars ++ '0' :: 'x' :: Nat.toDigits 16 v.natAbs)

theorem on_signOf (v : Int) : (signOf v).on v.natAbs = v := by
  unfold signOf
  split
  · show -(v.natAbs : Int) = v
    omega
  · show (v.natAbs : Int) = v
    omega

/-- The digits of a number, by their values. -/
theorem exists_digits {radix : Nat} (hradix : 1 < radix) (n : Nat) :
    ∃ ds : List Nat, Nat.toDigits radix n = ds.map Nat.digitChar ∧ (∀ d ∈ ds, d < radix) ∧
      Nat.ofDigits radix ds.reverse = n := by
  induction n using Nat.strongRecOn with
  | ind n ih =>
    rw [Nat.toDigits_eq_if hradix]
    split
    · next hn => exact ⟨[n], rfl, by simpa using hn, by simp⟩
    · next hn =>
      -- the last digit is the remainder, and the others are those of the quotient
      obtain ⟨ds, hds, hlt, hvalue⟩ := ih (n / radix) (Nat.div_lt_self (by omega) hradix)
      refine ⟨ds ++ [n % radix], ?_, ?_, ?_⟩
      · rw [hds, List.map_append, List.map_singleton]
      · intro d hd
        rcases List.mem_append.mp hd with hd | hd
        · exact hlt d hd
        · rw [List.mem_singleton.mp hd]
          exact Nat.mod_lt _ (by omega)
      · rw [List.reverse_concat, Nat.ofDigits_cons, hvalue]
        exact Nat.mod_add_div n radix

/-- Digits are a numeral in small and in capital letters. -/
theorem isNumeral_toDigits {radix : Nat} (hradix : 1 < radix) (hle : radix ≤ 16) (n : Nat) :
    IsNumeral radix (Nat.toDigits radix n) n ∧ IsNumeral radix (upperDigits radix n) n := by
  obtain ⟨ds, hds, hlt, hvalue⟩ := exists_digits hradix n
  have hne : Nat.toDigits radix n ≠ [] := Nat.toDigits_ne_nil
  refine ⟨⟨hne, ds, ?_, hvalue⟩, ⟨by simp [upperDigits], ds, ?_, hvalue⟩⟩
  · rw [hds, List.forall₂_map_left_iff, List.forall₂_same]
    exact fun d hd => ⟨hlt d hd, by have := hlt d hd; omega, Or.inl rfl⟩
  · rw [upperDigits, hds, List.map_map, List.forall₂_map_left_iff, List.forall₂_same]
    exact fun d hd => ⟨hlt d hd, by have := hlt d hd; omega, Or.inr rfl⟩

/-- The last digit of a number in base 16. -/
theorem getLast?_toDigits (n : Nat) :
    (Nat.toDigits 16 n).getLast? = some (Nat.digitChar (n % 16)) := by
  rw [Nat.toDigits_eq_if (by decide)]
  split
  · next hn => rw [Nat.mod_eq_of_lt hn, List.getLast?_singleton]
  · rw [List.getLast?_concat]

/-- A number with an ending is read back. -/
theorem readValue_written {v : Int} (hv : Word.InRange v) {letter : Char} {radix : Nat}
    (hletter : baseOf? letter = some radix) {digits : List Char}
    (hdigits : IsNumeral radix digits v.natAbs) :
    readValue (written v digits (String.ofList [letter])) = .ok v ∧
      readValue (written v digits (String.ofList ['|', letter])) = .ok v := by
  have hended := Literal.ended hletter (signOf v) hdigits
  have hbarred := Literal.barred hletter (signOf v) hdigits
  rw [on_signOf] at hended hbarred
  constructor
  · rw [readValue_eq_ok_iff_literal]
    exact ⟨by simpa [written] using hended, hv⟩
  · rw [readValue_eq_ok_iff_literal]
    exact ⟨by simpa [written] using hbarred, hv⟩

/-- **What is written without a mark is read back.** -/
theorem readValue_of_mem_renderings {v : Int} (hv : Word.InRange v) {text : String}
    (h : text ∈ renderings v) : readValue text = .ok v := by
  have hhex := isNumeral_toDigits (by decide : 1 < 16) (Nat.le_refl 16) v.natAbs
  have hbinary := isNumeral_toDigits (by decide : 1 < 2) (by decide : 2 ≤ 16) v.natAbs
  have hsmall := readValue_written hv (rfl : baseOf? 'h' = some 16) hhex.1
  have hcapital := readValue_written hv (rfl : baseOf? 'h' = some 16) hhex.2
  have htwo := readValue_written hv (rfl : baseOf? 'b' = some 2) hbinary.1
  simp only [renderings, List.mem_cons, List.not_mem_nil, or_false] at h
  rcases h with rfl | rfl | rfl | rfl | rfl | rfl | rfl
  · exact readValue_toString hv
  · exact hsmall.1
  · exact hsmall.2
  · exact hcapital.1
  · exact hcapital.2
  · exact htwo.1
  · exact htwo.2

/-- A number after its mark is a literal, if its last digit is not eleven. -/
theorem literal_markedHex {v : Int} (h : v.natAbs % 16 ≠ 11) : Literal (markedHex v).toList v := by
  have hdigits := (isNumeral_toDigits (by decide : 1 < 16) (Nat.le_refl 16) v.natAbs).1
  have hlast : (Nat.toDigits 16 v.natAbs).getLast? ≠ some 'b' := by
    rw [getLast?_toDigits]
    exact fun hb => h (Nat.digitChar_eq_b.mp (Option.some.inj hb))
  have hvalue := on_signOf v
  rw [markedHex, String.toList_ofList]
  -- a minus stands before the mark, and none after it
  by_cases hv : v < 0
  · rw [signOf, if_pos hv] at hvalue ⊢
    have hliteral := Literal.minusMarked .none hdigits hlast
    rwa [show -Sign.none.on v.natAbs = v from hvalue] at hliteral
  · rw [signOf, if_neg hv] at hvalue ⊢
    have hliteral := Literal.marked .none hdigits hlast
    rwa [hvalue] at hliteral

/-- A number after its mark is taken for base 2 if its last digit is eleven, and refused. -/
theorem readValue_markedHex_ne_ok {v : Int} (h : v.natAbs % 16 = 11) (w : Int) :
    readValue (markedHex v) ≠ .ok w := by
  intro hread
  have hlast := getLast?_toDigits v.natAbs
  rw [h] at hlast
  obtain ⟨front, hfront⟩ := List.getLast?_eq_some_iff.mp hlast
  have htext : (markedHex v).toList = (signOf v).chars ++ '0' :: 'x' :: front ++ ['b'] := by
    rw [markedHex, String.toList_ofList, hfront, List.append_assoc]
    rfl
  have hx : ∀ {text : List Char}, 'x' ∈ text → readSigned 2 text ≠ .ok w := fun hmem =>
    readSigned_ne_ok hmem (by decide) rfl
  have hmem : 'x' ∈ (signOf v).chars ++ '0' :: 'x' :: front := by simp
  rw [readValue_eq_ok_iff, htext, readLiteral_concat rfl, readSigned_withoutBar] at hread
  rcases hread.1 with hread | ⟨digits, hdigits, hread⟩
  · exact hx hmem hread
  · rw [hdigits] at hmem
    exact hx (by simpa using hmem) hread

/-- **Literals are read exactly by their grammar.** A text is read as a number exactly if the number
is a word and the text is a literal that denotes it, and any other text is refused. So a word is
read back from each of its usual renderings, except for the one with the mark of base 16, which is
refused if the last digit is eleven. -/
theorem literals_read_exactly :
    (∀ text v, readValue text = .ok v ↔ Literal text.toList v ∧ Word.InRange v) ∧
    (∀ text, (∃ fault, readValue text = .error fault) ↔
      ∀ v, ¬ (Literal text.toList v ∧ Word.InRange v)) ∧
    ∀ v, Word.InRange v →
      (∀ text ∈ renderings v, readValue text = .ok v) ∧
      (readValue (markedHex v) = .ok v ↔ v.natAbs % 16 ≠ 11) ∧
      (v.natAbs % 16 = 11 → ∃ fault, readValue (markedHex v) = .error fault) := by
  have herror : ∀ text, (∃ fault, readValue text = .error fault) ↔ ∀ v, readValue text ≠ .ok v := by
    intro text
    cases readValue text with
    | error fault => simp
    | ok v => simp
  refine ⟨fun text v => readValue_eq_ok_iff_literal, fun text => ?_, fun v hv => ⟨fun text htext =>
    readValue_of_mem_renderings hv htext, ⟨fun hread heleven => ?_, fun hne => ?_⟩,
    fun heleven => ?_⟩⟩
  · rw [herror]
    exact forall_congr' fun v => not_congr readValue_eq_ok_iff_literal
  · exact readValue_markedHex_ne_ok heleven v hread
  · exact readValue_eq_ok_iff_literal.mpr ⟨literal_markedHex hne, hv⟩
  · exact (herror _).mpr (readValue_markedHex_ne_ok heleven)

example : renderings (-27) = ["-27", "-1bh", "-1b|h", "-1Bh", "-1B|h", "-11011b", "-11011|b"] ∧
    markedHex (-27) = "-0x1b" := by decide

end Assembly

end CellMachine
