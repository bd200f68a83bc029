import CellMachine.Proofs.LinePositions
import CellMachine.Proofs.Tokens
import Mathlib.Data.List.Basic
import Mathlib.Data.List.Forall2

/-!
# Written text

Splitting a text into tokens undoes writing it. A line of tokens can be written in many ways: with
any separators before the first token and after the last, with at least one between two, and with a
comment at its end (`WrittenLine`). Lines make a text with a line feed after each of them, of which
the last may be missing if its line is not empty (`LaidOut`).

* `words_of_writtenLine` finds the tokens of a line. A comment does not count (`words_comment`), the
  separators in front are passed, and each token ends at the separator after it.
* `lines_of_laidOut` finds the lines of a text. The text of one line feed is the exception: its one
  line is empty, and nothing is left of it.
* `exists_written` says that there are no other texts: each is written in one of these ways, so what
  `tokenize_written` says of written texts it says of all.
-/

namespace CellMachine.Assembly

/-! ### Lines of tokens -/

/-- The characters that may stand between two tokens. -/
def separators : List Char := [' ', '\t', ',', '\r']

/-- A run of separators, which may be empty. -/
def IsGap (s : List Char) : Prop := ∀ c ∈ s, c ∈ separators

/-- What is written as one token: it is not empty, nothing in it separates tokens or ends a line,
and no comment starts in it. -/
structure IsLexeme (w : String) : Prop where
  nonempty : w.toList ≠ []
  chars : ∀ c ∈ w.toList, c ∉ separators ∧ c ≠ '\n' ∧ c ≠ '#'

/-- Tokens in a row, with some separators between any two. -/
inductive Joined : List String → List Char → Prop
  | none : Joined [] []
  | one (w : String) : Joined [w] w.toList
  | more {w v : String} {ws : List String} {gap row : List Char} (hgap : IsGap gap)
      (hne : gap ≠ []) (h : Joined (v :: ws) row) : Joined (w :: v :: ws) (w.toList ++ (gap ++ row))

/-- Nothing, or a comment up to the end of the line. -/
def IsComment (s : List Char) : Prop := s = [] ∨ ∃ rest, s = '#' :: rest ∧ '\n' ∉ rest

/-- **A written line**: tokens in a row, separators on either side, and a comment. -/
def WrittenLine (tokens : List String) (line : List Char) : Prop :=
  ∃ before row after comment, line = before ++ (row ++ after) ++ comment ∧ IsGap before ∧
    Joined tokens row ∧ IsGap after ∧ IsComment comment

theorem mem_separators_iff {c : Char} : c ∈ separators ↔ isSeparator c = true := by
  simp [separators, isSeparator, or_assoc]

instance (s : List Char) : Decidable (IsGap s) :=
  decidable_of_iff (s.all isSeparator = true) (by simp [IsGap, mem_separators_iff])

theorem IsGap.isSeparator {s : List Char} (h : IsGap s) : ∀ c ∈ s, isSeparator c = true :=
  fun c hc => mem_separators_iff.mp (h c hc)

theorem IsLexeme.isToken {w : String} (h : IsLexeme w) : IsToken w.toList where
  nonempty := h.nonempty
  chars c hc := by
    obtain ⟨hseparator, hnewline, hhash⟩ := h.chars c hc
    rw [mem_separators_iff, Bool.not_eq_true] at hseparator
    exact isTokenChar_iff.mpr ⟨hseparator, hhash, hnewline⟩

theorem isLexeme_iff {w : String} :
    IsLexeme w ↔ w.toList ≠ [] ∧ w.toList.all isTokenChar = true := by
  rw [List.all_eq_true]
  constructor
  · intro h
    exact ⟨h.nonempty, h.isToken.chars⟩
  · rintro ⟨hne, hchars⟩
    refine ⟨hne, fun c hc => ?_⟩
    obtain ⟨hseparator, hhash, hnewline⟩ := isTokenChar_iff.mp (hchars c hc)
    rw [← Bool.not_eq_true, ← mem_separators_iff] at hseparator
    exact ⟨hseparator, hnewline, hhash⟩

instance (w : String) : Decidable (IsLexeme w) := decidable_of_iff _ isLexeme_iff.symm

/-- A comment does not count. -/
theorem words_comment {comment : List Char} (h : IsComment comment) (s : List Char) :
    words (s ++ comment) = words s := by
  have hcut : beforeComment (s ++ comment) = beforeComment s := by
    rcases h with rfl | ⟨rest, rfl, -⟩
    · rw [List.append_nil]
    · induction s with
      | nil => rfl
      | cons c s ih =>
        unfold beforeComment at ih ⊢
        rw [List.cons_append, List.takeWhile_cons, List.takeWhile_cons, ih]
  rw [words, words, hcut]

theorem words_gap {gap : List Char} (h : IsGap gap) : words gap = [] := by
  have hnone := words_append_separators h.isSeparator []
  rwa [List.append_nil, words_nil] at hnone

/-- Separators after a row of tokens do not count either. -/
theorem words_joined {tokens : List String} {row after : List Char} (h : Joined tokens row)
    (htokens : ∀ w ∈ tokens, IsLexeme w) (hafter : IsGap after) :
    words (row ++ after) = tokens := by
  induction h with
  | none => exact words_gap hafter
  | one w =>
    have hw := (htokens w List.mem_cons_self).isToken
    cases after with
    | nil => rw [List.append_nil, words_token hw, String.ofList_toList]
    | cons c after =>
      obtain ⟨hc, hrest⟩ := List.forall_mem_cons.mp hafter
      rw [words_append_cons hw (mem_separators_iff.mp hc), words_gap hrest, String.ofList_toList]
  | @more w v ws gap row hgap hne _ ih =>
    obtain ⟨hw, hws⟩ := List.forall_mem_cons.mp htokens
    obtain ⟨c, gap, rfl⟩ := List.exists_cons_of_ne_nil hne
    obtain ⟨hc, hrest⟩ := List.forall_mem_cons.mp hgap
    -- the token ends at the first separator of the gap, and the others are passed
    rw [List.append_assoc, List.append_assoc, List.cons_append,
      words_append_cons hw.isToken (mem_separators_iff.mp hc),
      words_append_separators (IsGap.isSeparator hrest), ih hws, String.ofList_toList]

/-- **The tokens of a line** are found again. -/
theorem words_of_writtenLine {tokens : List String} {line : List Char}
    (h : WrittenLine tokens line) (htokens : ∀ w ∈ tokens, IsLexeme w) : words line = tokens := by
  obtain ⟨before, row, after, comment, rfl, hbefore, hrow, hafter, hcomment⟩ := h
  rw [words_comment hcomment, words_append_separators hbefore.isSeparator,
    words_joined hrow htokens hafter]

theorem IsGap.newline_notMem {s : List Char} (h : IsGap s) : '\n' ∉ s :=
  fun hc => absurd (h '\n' hc) (by decide)

theorem Joined.newline_notMem {tokens : List String} {row : List Char} (h : Joined tokens row)
    (htokens : ∀ w ∈ tokens, IsLexeme w) : '\n' ∉ row := by
  have htoken : ∀ w, IsLexeme w → '\n' ∉ w.toList := fun w hw hc => (hw.chars '\n' hc).2.1 rfl
  induction h with
  | none => exact List.not_mem_nil
  | one w => exact htoken w (htokens w List.mem_cons_self)
  | more hgap _ _ ih =>
    obtain ⟨hw, hws⟩ := List.forall_mem_cons.mp htokens
    rw [List.mem_append, List.mem_append, not_or, not_or]
    exact ⟨htoken _ hw, hgap.newline_notMem, ih hws⟩

theorem WrittenLine.newline_notMem {tokens : List String} {line : List Char}
    (h : WrittenLine tokens line) (htokens : ∀ w ∈ tokens, IsLexeme w) : '\n' ∉ line := by
  obtain ⟨before, row, after, comment, rfl, hbefore, hrow, hafter, hcomment⟩ := h
  have hnone : '\n' ∉ comment := by
    rcases hcomment with rfl | ⟨rest, rfl, hrest⟩
    · exact List.not_mem_nil
    · simpa using hrest
  simp only [List.mem_append, not_or]
  exact ⟨⟨hbefore.newline_notMem, hrow.newline_notMem htokens, hafter.newline_notMem⟩, hnone⟩

/-! ### Texts of lines -/

/-- Lines with a line feed after each. -/
def endedLines (ls : List (List Char)) : List Char := ls.flatMap fun l => l ++ ['\n']

/-- **Lines make a text.** Each is ended by a line feed, or each but the last if that is not
empty. -/
inductive LaidOut : List (List Char) → List Char → Prop
  | ended (ls : List (List Char)) : LaidOut ls (endedLines ls)
  | unended (front : List (List Char)) {last : List Char} (h : last ≠ []) :
      LaidOut (front ++ [last]) (endedLines front ++ last)

theorem endedLines_append_eq_textOf (front : List (List Char)) (last : List Char) :
    endedLines front ++ last = textOf (front ++ [last]) := by
  induction front with
  | nil => exact (textOf_singleton last).symm
  | cons l front ih =>
    rw [List.cons_append, textOf_cons l (by simp), ← ih]
    simp [endedLines]

theorem endedLines_concat (front : List (List Char)) (last : List Char) :
    endedLines (front ++ [last]) = textOf (front ++ [last]) ++ ['\n'] := by
  rw [← endedLines_append_eq_textOf]
  simp [endedLines]

/-- **The lines of a text** are found again, unless the text is a single line feed. -/
theorem lines_of_laidOut {ls : List (List Char)} {text : List Char} (h : LaidOut ls text)
    (hfree : ∀ l ∈ ls, '\n' ∉ l) (hne : text ≠ ['\n']) : lines text = ls := by
  cases h with
  | ended =>
    rcases List.eq_nil_or_concat' ls with rfl | ⟨front, last, rfl⟩
    · rfl
    · rw [endedLines_concat] at hne ⊢
      -- what stands before the last line feed is empty only in the exception
      have hbody : ¬ (textOf (front ++ [last])).isEmpty = true := by
        intro hempty
        rw [List.isEmpty_iff.mp hempty] at hne
        exact hne rfl
      simp only [lines, dropFinalNewline_concat, if_neg hbody]
      exact splitWhere_textOf (by simp) hfree
  | @unended front last hlast =>
    have hkept : dropFinalNewline (endedLines front ++ last) = endedLines front ++ last := by
      obtain ⟨last, c, rfl⟩ := (List.eq_nil_or_concat' last).resolve_left hlast
      have hc : c ≠ '\n' := by
        rintro rfl
        exact hfree (last ++ ['\n']) (by simp) (by simp)
      rw [dropFinalNewline, ← List.append_assoc, List.getLast?_concat, if_neg (by simpa using hc)]
    have hbody : ¬ (endedLines front ++ last).isEmpty = true := by simp [hlast]
    simp only [lines, hkept, if_neg hbody]
    rw [endedLines_append_eq_textOf]
    exact splitWhere_textOf (by simp) hfree

/-! ### Written texts -/

/-- **A written text**: the lines of some tokens, laid out one after the other. -/
def Written (tokenLines : List (List String)) (text : List Char) : Prop :=
  (∀ tokens ∈ tokenLines, ∀ w ∈ tokens, IsLexeme w) ∧
    ∃ ls, List.Forall₂ WrittenLine tokenLines ls ∧ LaidOut ls text

/-! ### Every text is written -/

/-- A character in front of a row joins the first token. -/
theorem Joined.cons_char {w : String} {ws : List String} {row : List Char}
    (h : Joined (w :: ws) row) (c : Char) :
    Joined (String.ofList (c :: w.toList) :: ws) (c :: row) := by
  have hchars : (String.ofList (c :: w.toList)).toList = c :: w.toList := String.toList_ofList
  cases h with
  | one =>
    have hone := Joined.one (String.ofList (c :: w.toList))
    rwa [hchars] at hone
  | more hgap hne hrest =>
    have hmore := Joined.more (w := String.ofList (c :: w.toList)) hgap hne hrest
    rwa [hchars] at hmore

theorem isLexeme_ofList {w : List Char} (hne : w ≠ [])
    (h : ∀ c ∈ w, c ∉ separators ∧ c ≠ '\n' ∧ c ≠ '#') : IsLexeme (String.ofList w) where
  nonempty := by rwa [String.toList_ofList]
  chars := by rwa [String.toList_ofList]

/-- Characters without a line feed or a comment are a row of tokens between separators. -/
theorem exists_joined {s : List Char} (h : ∀ c ∈ s, c ≠ '\n' ∧ c ≠ '#') :
    ∃ tokens before row after, (∀ w ∈ tokens, IsLexeme w) ∧ s = before ++ (row ++ after) ∧
      IsGap before ∧ Joined tokens row ∧ IsGap after := by
  have hnil : IsGap [] := List.forall_mem_nil _
  induction s with
  | nil => exact ⟨[], [], [], [], List.forall_mem_nil _, rfl, hnil, .none, hnil⟩
  | cons c s ih =>
    obtain ⟨hc, hs⟩ := List.forall_mem_cons.mp h
    obtain ⟨tokens, before, row, after, htokens, rfl, hbefore, hrow, hafter⟩ := ih hs
    by_cases hseparator : c ∈ separators
    · exact ⟨tokens, c :: before, row, after, htokens, rfl,
        List.forall_mem_cons.mpr ⟨hseparator, hbefore⟩, hrow, hafter⟩
    · have hchar : IsLexeme (String.ofList [c]) :=
        isLexeme_ofList (List.cons_ne_nil _ _)
          (List.forall_mem_singleton.mpr ⟨hseparator, hc.1, hc.2⟩)
      have hsingle : Joined [String.ofList [c]] [c] := by
        have hone := Joined.one (String.ofList [c])
        rwa [String.toList_ofList] at hone
      cases tokens with
      | nil =>
        -- the first token of the line; all that follows it separates
        cases hrow
        refine ⟨[String.ofList [c]], [], [c], before ++ after, ?_, by simp, hnil, hsingle, ?_⟩
        · exact List.forall_mem_singleton.mpr hchar
        · exact List.forall_mem_append.mpr ⟨hbefore, hafter⟩
      | cons w ws =>
        by_cases hgap : before = []
        · -- the character joins the token that it stands before
          subst hgap
          obtain ⟨hw, hws⟩ := List.forall_mem_cons.mp htokens
          refine ⟨String.ofList (c :: w.toList) :: ws, [], c :: row, after, ?_, rfl, hnil,
            hrow.cons_char c, hafter⟩
          refine List.forall_mem_cons.mpr ⟨isLexeme_ofList (List.cons_ne_nil _ _) ?_, hws⟩
          exact List.forall_mem_cons.mpr ⟨⟨hseparator, hc.1, hc.2⟩, hw.chars⟩
        · refine ⟨String.ofList [c] :: w :: ws, [], [c] ++ (before ++ row), after, ?_, by simp,
            hnil, ?_, hafter⟩
          · exact List.forall_mem_cons.mpr ⟨hchar, htokens⟩
          · have hmore := Joined.more (w := String.ofList [c]) hbefore hgap hrow
            rwa [String.toList_ofList] at hmore

/-- Every line is written. -/
theorem exists_writtenLine {line : List Char} (h : '\n' ∉ line) :
    ∃ tokens, (∀ w ∈ tokens, IsLexeme w) ∧ WrittenLine tokens line := by
  have hparts : beforeComment line ++ line.dropWhile (· != '#') = line :=
    List.takeWhile_append_dropWhile
  have hfree : ∀ c ∈ line, c ≠ '\n' := fun c hc heq => h (heq ▸ hc)
  obtain ⟨tokens, before, row, after, htokens, hrow, hbefore, hjoined, hafter⟩ :
      ∃ tokens before row after, (∀ w ∈ tokens, IsLexeme w) ∧
        beforeComment line = before ++ (row ++ after) ∧ IsGap before ∧ Joined tokens row ∧
        IsGap after := by
    refine exists_joined fun c hc => ⟨hfree c (hparts ▸ List.mem_append_left _ hc), ?_⟩
    exact bne_iff_ne.mp (List.mem_takeWhile_imp (p := (· != '#')) hc)
  refine ⟨tokens, htokens, before, row, after, line.dropWhile (· != '#'), ?_, hbefore, hjoined,
    hafter, ?_⟩
  · rw [← hrow, hparts]
  · cases hcomment : line.dropWhile (· != '#') with
    | nil => exact Or.inl rfl
    | cons c rest =>
      -- what is dropped up to there has no `#`, so the first that is kept is one
      have hhash : c = '#' := by
        have hhead := List.head?_dropWhile_not (· != '#') line
        rw [hcomment] at hhead
        simpa using hhead
      refine Or.inr ⟨rest, by rw [hhash], fun hc => ?_⟩
      have hmem : '\n' ∈ line := by
        rw [← hparts, hcomment]
        exact List.mem_append_right _ (List.mem_cons_of_mem c hc)
      exact h hmem

/-- Every text is made of lines. -/
theorem exists_laidOut (text : List Char) : ∃ ls, LaidOut ls text ∧ ∀ l ∈ ls, '\n' ∉ l := by
  induction text with
  | nil => exact ⟨[], .ended [], List.forall_mem_nil _⟩
  | cons c text ih =>
    obtain ⟨ls, hlaid, hfree⟩ := ih
    by_cases hc : c = '\n'
    · subst hc
      refine ⟨[] :: ls, ?_, List.forall_mem_cons.mpr ⟨List.not_mem_nil, hfree⟩⟩
      cases hlaid with
      | ended => exact .ended ([] :: ls)
      | unended front hlast => exact .unended ([] :: front) hlast
    · have hjoin : ∀ l, '\n' ∉ l → '\n' ∉ c :: l := fun l hl hmem =>
        (List.mem_cons.mp hmem).elim (fun heq => hc heq.symm) hl
      cases hlaid with
      | ended =>
        cases ls with
        | nil =>
          exact ⟨[[c]], .unended [] (List.cons_ne_nil c []),
            List.forall_mem_singleton.mpr (hjoin [] List.not_mem_nil)⟩
        | cons l ls =>
          obtain ⟨hl, hls⟩ := List.forall_mem_cons.mp hfree
          exact ⟨(c :: l) :: ls, .ended _, List.forall_mem_cons.mpr ⟨hjoin l hl, hls⟩⟩
      | @unended front last hlast =>
        cases front with
        | nil =>
          exact ⟨[c :: last], .unended [] (List.cons_ne_nil c last),
            List.forall_mem_singleton.mpr (hjoin last (hfree last (by simp)))⟩
        | cons l front =>
          obtain ⟨hl, hls⟩ := List.forall_mem_cons.mp hfree
          exact ⟨(c :: l) :: (front ++ [last]), .unended ((c :: l) :: front) hlast,
            List.forall_mem_cons.mpr ⟨hjoin l hl, hls⟩⟩

/-- **Every text is written** in one of these ways. -/
theorem exists_written (text : List Char) : ∃ tokenLines, Written tokenLines text := by
  obtain ⟨ls, hlaid, hfree⟩ := exists_laidOut text
  have hlines : ∃ tokenLines, (∀ tokens ∈ tokenLines, ∀ w ∈ tokens, IsLexeme w) ∧
      List.Forall₂ WrittenLine tokenLines ls := by
    clear hlaid
    induction ls with
    | nil => exact ⟨[], List.forall_mem_nil _, .nil⟩
    | cons l ls ih =>
      obtain ⟨hl, hls⟩ := List.forall_mem_cons.mp hfree
      obtain ⟨tokens, htokens, hline⟩ := exists_writtenLine hl
      obtain ⟨tokenLines, hall, hrest⟩ := ih hls
      exact ⟨tokens :: tokenLines, List.forall_mem_cons.mpr ⟨htokens, hall⟩, .cons hline hrest⟩
  obtain ⟨tokenLines, hall, hwritten⟩ := hlines
  exact ⟨tokenLines, hall, ls, hwritten, hlaid⟩

theorem words_of_written {tokenLines : List (List String)} {ls : List (List Char)}
    (h : List.Forall₂ WrittenLine tokenLines ls)
    (htokens : ∀ tokens ∈ tokenLines, ∀ w ∈ tokens, IsLexeme w) :
    ls.map words = tokenLines ∧ ∀ l ∈ ls, '\n' ∉ l := by
  induction h with
  | nil => exact ⟨rfl, List.forall_mem_nil _⟩
  | cons hline _ ih =>
    obtain ⟨hfirst, hrest⟩ := List.forall_mem_cons.mp htokens
    obtain ⟨hwords, hfree⟩ := ih hrest
    refine ⟨?_, List.forall_mem_cons.mpr ⟨hline.newline_notMem hfirst, hfree⟩⟩
    rw [List.map_cons, words_of_writtenLine hline hfirst, hwords]

/-- **Lexing undoes writing.** Every text is written, and however it is written its token lines are
the ones that were written, each at its place, with each token that is defined replaced by its
value. A single line feed is the one exception; it has no lines. -/
theorem tokenize_written (text : String) :
    (∃ tokenLines, Written tokenLines text.toList) ∧
    ∀ (defines : Table String) (tokenLines : List (List String)), Written tokenLines text.toList →
      tokenize defines text =
        if text = "\n" then []
        else tokenLines.map fun tokens => tokens.map fun w => (defines.find? w).getD w := by
  refine ⟨exists_written text.toList, fun defines tokenLines h => ?_⟩
  obtain ⟨htokens, ls, hwritten, hlaid⟩ := h
  obtain ⟨hwords, hfree⟩ := words_of_written hwritten htokens
  by_cases htext : text = "\n"
  · rw [if_pos htext, htext]
    rfl
  · have hne : text.toList ≠ ['\n'] := by
      intro heq
      apply htext
      rw [← String.ofList_toList (s := text), heq]
    rw [if_neg htext, tokenize, lines_of_laidOut hlaid hfree hne, ← hwords, List.map_map]
    rfl

/-- Tabs and commas around tokens, lines without tokens, a comment that holds what would be a token,
and a last line that is not ended. -/
def raggedText : String := "\t mov,eax ,N#, 1\n\n, \r\n# x\nN:"

/-- The name that is defined is replaced where it is a token of its own, by a value that is not
split. -/
theorem raggedText_tokens :
    Written [["mov", "eax", "N"], [], [], [], ["N:"]] raggedText.toList ∧
      tokenize ⟨[("N", "a b"), ("a", "c")]⟩ raggedText =
        [["mov", "eax", "a b"], [], [], [], ["N:"]] := by
  have hnil : IsGap [] := List.forall_mem_nil _
  have hrow : Joined ["mov", "eax", "N"] "mov,eax ,N".toList :=
    .more (by decide : IsGap [',']) (by simp)
      (.more (by decide : IsGap [' ', ',']) (by simp) (.one "N"))
  have htokens : WrittenLine ["mov", "eax", "N"] "\t mov,eax ,N#, 1".toList :=
    ⟨['\t', ' '], _, [], "#, 1".toList, rfl, by decide, hrow, hnil,
      Or.inr ⟨[',', ' ', '1'], rfl, by decide⟩⟩
  have hempty : WrittenLine [] [] := ⟨[], [], [], [], rfl, hnil, .none, hnil, Or.inl rfl⟩
  have hgap : WrittenLine [] ", \r".toList :=
    ⟨[',', ' ', '\r'], [], [], [], rfl, by decide, .none, hnil, Or.inl rfl⟩
  have hcomment : WrittenLine [] "# x".toList :=
    ⟨[], [], [], "# x".toList, rfl, hnil, .none, hnil, Or.inr ⟨[' ', 'x'], rfl, by decide⟩⟩
  have hlast : WrittenLine ["N:"] "N:".toList :=
    ⟨[], "N:".toList, [], [], rfl, hnil, .one "N:", hnil, Or.inl rfl⟩
  have hwritten : Written [["mov", "eax", "N"], [], [], [], ["N:"]] raggedText.toList := by
    refine ⟨?_, _, .cons htokens (.cons hempty (.cons hgap (.cons hcomment (.cons hlast .nil)))),
      .unended ["\t mov,eax ,N#, 1".toList, [], ", \r".toList, "# x".toList] (by decide)⟩
    decide
  exact ⟨hwritten, ((tokenize_written raggedText).2 _ _ hwritten).trans (by decide)⟩

end CellMachine.Assembly
