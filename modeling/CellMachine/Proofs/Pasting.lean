import CellMachine.Assembly.Basic
import CellMachine.Proofs.LinePositions
import Mathlib.Data.List.Basic

/-!
# Included text is pasted

An inclusion takes its line, with the line feed, and leaves the text of the file as it is. What
comes of a source that includes a file is what comes of the source with the text in that place
(`include_pastes_text`). The text need not end in a line feed. If it does not, and something
follows, then the last line of the file and the first line after the directive become one, and a
directive can arise where they meet.

* What comes of a text is the outcome after all large enough numbers of rounds (`Yields`). Every
  text has one (`exists_yields`): a text that includes itself for ever remains unfinished.
* Files that nothing changes are the same whatever was logged, so the log makes no difference to the
  rounds (`Expansion.after_alike`).
* The first round of the source that includes may go on to a definition, and then it is ahead of the
  pasted text by an inclusion. At one place there is one percent sign, so at most one of the two
  marks arises there (`not_infix_both`), and the rounds fall into step.
-/

namespace CellMachine.Assembly

variable {files : Files} {base : Option Files.Path}

/-! ### What comes of a text -/

namespace Expansion

variable {e e' : Expansion}

/-- What comes of an expansion: the program of its text, or what is wrong. -/
def outcome (e : Expansion) : Except AssemblyFault Program :=
  match e.status with
  | .expanding => .error .unfinished
  | .failed fault => .error (.directive fault)
  | .finished =>
    match (parse (tokenize e.defines (String.ofList e.text)) e.defines).program with
    | .error error => .error (.parse error)
    | .ok program => .ok program

theorem fst_assemble (files : Files.Live) (base : Option Files.Path) (rounds : Nat)
    (source : String) (defines : Table String) (log : Array Log.Record) :
    (assemble files base rounds source defines log).1 =
      ((start source defines log).after files base rounds).outcome := by
  unfold assemble
  generalize (start source defines log).after files base rounds = e
  unfold outcome
  dsimp only
  cases e.status with
  | expanding => rfl
  | failed fault => rfl
  | finished =>
    dsimp only
    cases (parse (tokenize e.defines (String.ofList e.text)) e.defines).program with
    | error error => rfl
    | ok program => rfl

theorem outcome_of_alike (h : Alike e e') : e.outcome = e'.outcome := by
  unfold outcome
  rw [h.text, h.defines, h.status]

/-- What was logged before makes no difference to what comes of a text. -/
theorem fst_assemble_still (rounds : Nat) (source : String) (defines : Table String)
    (log : Array Log.Record) :
    (assemble (Files.still files) base rounds source defines log).1 =
      ((start source defines #[]).after (Files.still files) base rounds).outcome := by
  rw [fst_assemble]
  exact outcome_of_alike (after_alike (start_alike source defines log #[]) rounds)

end Expansion

/-- What comes of a text after all large enough numbers of rounds, whatever was logged before. -/
def Yields (files : Files) (base : Option Files.Path) (seeds : Table String) (text : List Char)
    (r : Except AssemblyFault Program) : Prop :=
  ∃ n, ∀ rounds, n ≤ rounds → ∀ log,
    (assemble (Files.still files) base rounds (String.ofList text) seeds log).1 = r

section Yields

variable {seeds : Table String} {text text' : List Char} {r r' : Except AssemblyFault Program}

theorem Yields.unique (h : Yields files base seeds text r) (h' : Yields files base seeds text r') :
    r = r' := by
  obtain ⟨n, hn⟩ := h
  obtain ⟨n', hn'⟩ := h'
  exact (hn (max n n') (Nat.le_max_left _ _) #[]).symm.trans (hn' _ (Nat.le_max_right _ _) #[])

/-- What a text has come to after some rounds is what comes of it, unless the rounds did not
suffice. -/
theorem Yields.of_outcome {n : Nat}
    (h : ((Expansion.start (String.ofList text) seeds #[]).after (Files.still files) base n).outcome
      = r)
    (hr : r ≠ .error .unfinished) : Yields files base seeds text r := by
  refine ⟨n, fun rounds hrounds log => ?_⟩
  have hstopped : ((Expansion.start (String.ofList text) seeds #[]).after
      (Files.still files) base n).status ≠ .expanding := by
    intro hstatus
    rw [Expansion.outcome, hstatus] at h
    exact hr h.symm
  rw [Expansion.fst_assemble_still, Expansion.after_eq_of_stopped hstopped hrounds, h]

/-- A text that includes itself for ever stays unfinished, so every text comes to something. -/
theorem exists_yields (files : Files) (base : Option Files.Path) (seeds : Table String)
    (text : List Char) : ∃ r, Yields files base seeds text r := by
  by_cases hfinal : ∃ n, ((Expansion.start (String.ofList text) seeds #[]).after
      (Files.still files) base n).outcome ≠ .error .unfinished
  · obtain ⟨n, hn⟩ := hfinal
    exact ⟨_, .of_outcome rfl hn⟩
  · refine ⟨.error .unfinished, 0, fun rounds _ log => ?_⟩
    rw [Expansion.fst_assemble_still]
    exact Classical.byContradiction fun hne => hfinal ⟨rounds, hne⟩

/-- **Rounds that fall into step** come to the same: the first round of one text leads to the other
text, or to where its first round leads. -/
theorem Yields.of_advance (h : Yields files base seeds text' r)
    (hstep : ∀ log,
      let e := (Expansion.start (String.ofList text) seeds log).advance (Files.still files) base
      let e' := Expansion.start (String.ofList text') seeds #[]
      e.Alike e' ∨ e.Alike (e'.advance (Files.still files) base)) :
    Yields files base seeds text r := by
  obtain ⟨n, hn⟩ := h
  refine ⟨n + 1, fun rounds hrounds log => ?_⟩
  obtain ⟨rounds, rfl⟩ := Nat.exists_eq_succ_of_ne_zero (Nat.ne_zero_of_lt hrounds)
  rw [Expansion.fst_assemble, Expansion.after_succ_front]
  rcases hstep log with halike | halike
  · -- the other text is one round behind
    rw [Expansion.outcome_of_alike (Expansion.after_alike halike rounds), ← Expansion.fst_assemble]
    exact hn rounds (Nat.le_of_succ_le_succ hrounds) #[]
  · rw [Expansion.outcome_of_alike (Expansion.after_alike halike rounds),
      ← Expansion.after_succ_front, ← Expansion.fst_assemble]
    exact hn (rounds + 1) (Nat.le_of_succ_le hrounds) #[]

end Yields

/-! ### Where texts meet -/

section Seam

variable {mark mark' front rest : List Char} {c d : Char}

/-- A mark that starts in the first text and ends in the second begins with the last of its percent
signs, so the other mark does not arise there. -/
theorem not_infix_of_prefix (hc : c ∉ mark) (hfront : ¬ c :: mark <:+: d :: front)
    (hrest : ¬ c :: mark' <:+: rest) (hapart : ¬ mark <+: mark' ∧ ¬ mark' <+: mark)
    (h : c :: mark <+: d :: (front ++ rest)) : ¬ c :: mark' <:+: d :: (front ++ rest) := by
  obtain ⟨rfl, hmark⟩ := List.cons_prefix_cons.mp h
  -- the mark goes on beyond the first text, which has no other percent sign
  have hinner : front <+: mark := by
    refine (List.prefix_or_prefix_of_prefix hmark (List.prefix_append _ _)).resolve_left ?_
    exact fun hprefix => hfront (List.cons_prefix_cons.mpr ⟨rfl, hprefix⟩).isInfix
  have hnone : c ∉ front := fun hmem => hc (hinner.subset hmem)
  rw [List.infix_cons_iff, not_or]
  refine ⟨fun hother => ?_, not_infix_append hnone hrest⟩
  have hmark' := (List.cons_prefix_cons.mp hother).2
  exact (List.prefix_or_prefix_of_prefix hmark hmark').elim hapart.1 hapart.2

/-- **At most one of two marks arises where texts meet.** -/
theorem not_infix_both (hc : c ∉ mark) (hc' : c ∉ mark')
    (hapart : ¬ mark <+: mark' ∧ ¬ mark' <+: mark) (hfront : ¬ c :: mark <:+: front)
    (hfront' : ¬ c :: mark' <:+: front) (hrest : ¬ c :: mark <:+: rest)
    (hrest' : ¬ c :: mark' <:+: rest) (h : c :: mark <:+: front ++ rest) :
    ¬ c :: mark' <:+: front ++ rest := by
  -- along the first text, up to where the first of the marks begins
  induction front with
  | nil => exact absurd h hrest
  | cons d front ih =>
    intro h'
    rw [List.cons_append] at h h'
    rcases List.infix_cons_iff.mp h with hprefix | hlater
    · exact not_infix_of_prefix hc hfront hrest' hapart hprefix h'
    rcases List.infix_cons_iff.mp h' with hprefix | hlater'
    · exact not_infix_of_prefix hc' hfront' hrest hapart.symm hprefix h
    rw [List.infix_cons_iff, not_or] at hfront hfront'
    exact ih hfront.2 hfront'.2 hlater hlater'

end Seam

/-- No directive is found in the text. -/
structure Free (text : List Char) : Prop where
  noInclude : ¬ includeMark <:+: text
  noDefine : ¬ defineMark <:+: text

/-- The text is empty or ends in a line feed. -/
def Ended (text : List Char) : Prop := text = [] ∨ text.getLast? = some '\n'

instance (text : List Char) : Decidable (Ended text) := inferInstanceAs (Decidable (_ ∨ _))

/-- The text with a line feed at its end if there is none. -/
def endLine (text : List Char) : List Char := if Ended text then text else text ++ ['\n']

section Ended

variable {before text rest mark : List Char}

theorem infix_ended_append_iff (h : Ended before) (hne : mark ≠ []) (hd : '\n' ∉ mark) :
    mark <:+: before ++ rest ↔ mark <:+: before ∨ mark <:+: rest := by
  rcases h with rfl | hlast
  · rw [List.nil_append, List.infix_nil, or_iff_right hne]
  · obtain ⟨before, rfl⟩ := List.getLast?_eq_some_iff.mp hlast
    rw [List.append_assoc, List.singleton_append, Text.infix_append_cons_iff hne hd,
      Text.infix_append_cons_iff hne hd, List.infix_nil, or_iff_left hne]

theorem Free.append (hended : Ended before) (hbefore : Free before) (hrest : Free rest) :
    Free (before ++ rest) where
  noInclude h := ((infix_ended_append_iff hended (by decide) (by decide)).mp h).elim
    hbefore.noInclude hrest.noInclude
  noDefine h := ((infix_ended_append_iff hended (by decide) (by decide)).mp h).elim
    hbefore.noDefine hrest.noDefine

/-- A line feed at the end of a text makes no directive. -/
theorem Free.concat (h : Free text) : Free (text ++ ['\n']) where
  noInclude hmark := ((Text.infix_append_cons_iff (by decide) (by decide)).mp hmark).elim
    h.noInclude (by decide)
  noDefine hmark := ((Text.infix_append_cons_iff (by decide) (by decide)).mp hmark).elim
    h.noDefine (by decide)

end Ended

/-! ### The first round -/

namespace Expansion

variable {e : Expansion}

theorem replaceDefine_found (h : defineMark <:+: e.text) : e.replaceDefine.2 = true := by
  unfold replaceDefine
  cases hfirst : firstOccurrence? defineMark e.text with
  | none => exact absurd h (firstOccurrence?_eq_none_iff.mp hfirst)
  | some o =>
    dsimp only
    cases addDefinition e.defines o.argument with
    | error fault => rfl
    | ok defines => rfl

/-- **The first round** on a text that includes a file, up to the definition that may follow. -/
theorem advance_of_inclusion {before tail text rest : List Char} {path : Files.Path}
    (hstatus : e.status = .expanding)
    (htext : e.text = before ++ (includeMark ++ (tail ++ '\n' :: rest)))
    (hended : Ended before) (hbefore : ¬ includeMark <:+: before) (htail : '\n' ∉ tail)
    (hfile : includeText files base (String.ofList (Text.trimChars tail)) = .ok (text, path)) :
    ∃ e₁, Alike e₁ { e with text := before ++ (text ++ rest) } ∧
      e.advance (Files.still files) base = settle true e₁.replaceDefine := by
  -- what stands before the mark is ended, so the mark does not begin earlier
  have hfirst : ¬ includeMark <:+: before ++ includeMark.dropLast := by
    rw [infix_ended_append_iff hended (by decide) (by decide), not_or]
    exact ⟨hbefore, fun h => absurd h.length_le (by decide)⟩
  have hfound := firstOccurrence?_first (by decide) hfirst htail ('\n' :: rest) (by simp)
  rw [← htext] at hfound
  have hreplace : e.replaceInclude (Files.still files) base =
      ({ e with
          text := before ++ (text ++ rest)
          log := e.log.push (includeRecord path text) }, true) := by
    unfold replaceInclude Files.still
    rw [hfound]
    dsimp only
    rw [hfile]
    simp [Occurrence.replace, List.reverseAux_eq]
  have hgoes : (e.replaceInclude (Files.still files) base).1.status = .expanding := by
    rw [hreplace]
    exact hstatus
  refine ⟨(e.replaceInclude (Files.still files) base).1, ?_, ?_⟩
  · rw [hreplace]
    exact ⟨rfl, rfl, rfl⟩
  · rw [advance_eq_settle hstatus hgoes, hreplace]

end Expansion

/-- **The inclusion and the pasted text fall into step.** -/
theorem advance_inclusion_alike {before tail text rest : List Char} {path : Files.Path}
    (hended : Ended before) (hbefore : Free before) (htext : Free text) (hrest : Free rest)
    (htail : '\n' ∉ tail)
    (hfile : includeText files base (String.ofList (Text.trimChars tail)) = .ok (text, path))
    (seeds : Table String) (log : Array Log.Record) :
    let e := (Expansion.start (String.ofList (before ++ (includeMark ++ (tail ++ '\n' :: rest))))
      seeds log).advance (Files.still files) base
    let e' := Expansion.start (String.ofList (before ++ (text ++ rest))) seeds #[]
    e.Alike e' ∨ e.Alike (e'.advance (Files.still files) base) := by
  intro e e'
  have hpasted : e'.text = before ++ (text ++ rest) := String.toList_ofList
  obtain ⟨e₁, halike₁, hadvance⟩ : ∃ e₁, Expansion.Alike e₁ _ ∧ e = _ :=
    Expansion.advance_of_inclusion rfl String.toList_ofList hended hbefore.noInclude htail hfile
  have halike : e₁.Alike e' := ⟨halike₁.text.trans hpasted.symm, halike₁.defines, halike₁.status⟩
  rw [hadvance]
  by_cases hdefine : defineMark <:+: e'.text
  · -- the definition arises where the texts meet, and there no inclusion does
    right
    have hinclude : ¬ includeMark <:+: e'.text := by
      rw [hpasted, infix_ended_append_iff hended (by decide) (by decide),
        or_iff_right hbefore.noDefine] at hdefine
      rw [hpasted, infix_ended_append_iff hended (by decide) (by decide),
        or_iff_right hbefore.noInclude]
      exact @not_infix_both "define".toList "include".toList text rest '%' (by decide) (by decide)
        (by decide) htext.noDefine htext.noInclude hrest.noDefine hrest.noInclude hdefine
    rw [Expansion.advance_of_includes_nothing rfl hinclude,
      Expansion.settle_of_found (Expansion.replaceDefine_found hdefine),
      Expansion.settle_of_found (Expansion.replaceDefine_found (halike.text ▸ hdefine))]
    exact (Expansion.replaceDefine_alike halike).1
  · -- the round ends with the inclusion
    left
    rw [← halike.text] at hdefine
    rw [Expansion.replaceDefine, firstOccurrence?_eq_none_iff.mpr hdefine]
    exact halike

/-! ### Lines that meet -/

/-- The last line of a text in the middle and the first line of what follows are read as one. With a
line feed between them they would be two. -/
def Merges (before text rest : List Char) : Prop :=
  ∃ front inner last first back, last ≠ [] ∧
    Text.splitWhere (· == '\n') before = front ++ [[]] ∧
    Text.splitWhere (· == '\n') text = inner ++ [last] ∧
    Text.splitWhere (· == '\n') (dropFinalNewline rest) = first :: back ∧
    lines (before ++ (text ++ rest)) = front ++ (inner ++ (last ++ first) :: back) ∧
    lines (before ++ (endLine text ++ rest)) = front ++ (inner ++ last :: first :: back)

section Lines

variable {before text rest : List Char}

theorem dropFinalNewline_append (h : rest ≠ []) (before : List Char) :
    dropFinalNewline (before ++ rest) = before ++ dropFinalNewline rest := by
  obtain ⟨rest, c, rfl⟩ := (List.eq_nil_or_concat' rest).resolve_left h
  rw [dropFinalNewline, dropFinalNewline, ← List.append_assoc, List.getLast?_concat,
    List.getLast?_concat, List.dropLast_concat, List.dropLast_concat]
  split
  · rfl
  · exact List.append_assoc _ _ _

theorem lines_append (hbefore : before ≠ []) (hrest : rest ≠ []) :
    lines (before ++ rest) = Text.splitWhere (· == '\n') (before ++ dropFinalNewline rest) := by
  have hbody : ¬ (before ++ dropFinalNewline rest).isEmpty = true := by simp [hbefore]
  simp only [lines, dropFinalNewline_append hrest, if_neg hbody]

/-- The lines of a text that is ended are followed by those of what comes next. -/
theorem exists_splitWhere_ended (h : Ended before) :
    ∃ front, Text.splitWhere (· == '\n') before = front ++ [[]] ∧
      ∀ text, Text.splitWhere (· == '\n') (before ++ text) =
        front ++ Text.splitWhere (· == '\n') text := by
  rcases h with rfl | hlast
  · exact ⟨[], rfl, fun text => rfl⟩
  · obtain ⟨before, rfl⟩ := List.getLast?_eq_some_iff.mp hlast
    refine ⟨Text.splitWhere (· == '\n') before, Text.splitWhere_append_cut rfl before [], ?_⟩
    intro text
    rw [List.append_assoc, List.singleton_append, Text.splitWhere_append_cut rfl]

/-- The last line of a text that is not ended is not empty. -/
theorem exists_splitWhere_unended (h : ¬ Ended text) :
    ∃ inner last, last ≠ [] ∧ Text.splitWhere (· == '\n') text = inner ++ [last] := by
  rw [Ended, not_or] at h
  obtain ⟨text, c, rfl⟩ := (List.eq_nil_or_concat' text).resolve_left h.1
  have hc : c ≠ '\n' := by simpa using h.2
  have hchar : Text.splitWhere (· == '\n') [c] = [[c]] :=
    Text.splitWhere_of_free (by simpa using hc)
  obtain ⟨inner, last, hinner⟩ := (List.eq_nil_or_concat' _).resolve_left
    (Text.splitWhere_ne_nil (· == '\n') text)
  exact ⟨inner, last ++ [c], by simp, Text.splitWhere_append hinner hchar⟩

theorem merges_of_unended (hbefore : Ended before) (htext : ¬ Ended text) (hrest : rest ≠ []) :
    Merges before text rest := by
  obtain ⟨front, hfront, hlines⟩ := exists_splitWhere_ended hbefore
  obtain ⟨inner, last, hlast, hinner⟩ := exists_splitWhere_unended htext
  obtain ⟨first, back, hback⟩ :=
    List.exists_cons_of_ne_nil (Text.splitWhere_ne_nil (· == '\n') (dropFinalNewline rest))
  have hne : before ++ text ≠ [] := by
    rw [Ended, not_or] at htext
    simp [htext.1]
  refine ⟨front, inner, last, first, back, hlast, hfront, hinner, hback, ?_, ?_⟩
  · rw [← List.append_assoc, lines_append hne hrest, List.append_assoc, hlines,
      Text.splitWhere_append hinner hback]
  · rw [endLine, if_neg htext, ← List.append_assoc, ← List.append_assoc,
      lines_append (by simp) hrest, List.append_assoc, List.singleton_append, List.append_assoc,
      hlines, Text.splitWhere_append_cut rfl, hinner, hback, List.append_assoc,
      List.singleton_append]

end Lines

/-! ### Included text -/

section Included

variable {seeds : Table String} {text text' : List Char}

/-- A text without directives comes to the program of its lines. -/
theorem yields_of_free (h : Free text) :
    Yields files base seeds text
      (Expansion.outcome { text, defines := seeds, status := .finished }) := by
  refine ⟨1, fun rounds hrounds log => ?_⟩
  obtain ⟨rounds, rfl⟩ := Nat.exists_eq_succ_of_ne_zero (Nat.ne_zero_of_lt hrounds)
  have hstart : (Expansion.start (String.ofList text) seeds log).text = text := String.toList_ofList
  have hfree : Free (Expansion.start (String.ofList text) seeds log).text := by rwa [hstart]
  rw [Expansion.fst_assemble, Expansion.after_of_free rfl hfree.noInclude hfree.noDefine]
  exact Expansion.outcome_of_alike ⟨hstart, rfl, rfl⟩

theorem outcome_eq_of_lines (h : lines text = lines text') :
    Expansion.outcome { text, defines := seeds, status := .finished } =
      Expansion.outcome { text := text', defines := seeds, status := .finished } := by
  simp only [Expansion.outcome, tokenize, String.toList_ofList, h]

/-- A line feed at the end of a last line adds no line. -/
theorem lines_concat (h : ¬ Ended text) : lines (text ++ ['\n']) = lines text := by
  rw [Ended, not_or] at h
  have hkept : dropFinalNewline text = text := if_neg h.2
  simp only [lines, hkept, dropFinalNewline_concat]

/-- Nothing comes of a line feed at the end of a last line. -/
theorem Yields.concat {r : Except AssemblyFault Program} (h : Yields files base seeds text r)
    (hfree : Free text) (hunended : ¬ Ended text) : Yields files base seeds (text ++ ['\n']) r := by
  rw [h.unique (yields_of_free hfree), ← outcome_eq_of_lines (lines_concat hunended)]
  exact yields_of_free hfree.concat

theorem not_ended_append (h : ¬ Ended text) (before : List Char) : ¬ Ended (before ++ text) := by
  rw [Ended, not_or] at h ⊢
  obtain ⟨text, c, rfl⟩ := (List.eq_nil_or_concat' text).resolve_left h.1
  rw [← List.append_assoc, List.getLast?_concat]
  rw [List.getLast?_concat] at h
  exact ⟨by simp, h.2⟩

end Included

/-- **Included text is pasted.** A source that includes a file comes to what the source comes to
with the text of the file in place of the directive. This is also what it comes to with every line
of the file ended, if the text is ended or nothing follows. Otherwise the last line of the file and
the first line after the directive are read as one. -/
theorem include_pastes_text {before tail text rest : List Char} {path : Files.Path}
    (hended : Ended before) (hbefore : Free before) (htext : Free text) (hrest : Free rest)
    (htail : '\n' ∉ tail)
    (hfile : includeText files base (String.ofList (Text.trimChars tail)) = .ok (text, path))
    (seeds : Table String) :
    let source := before ++ (includeMark ++ (tail ++ '\n' :: rest))
    (∃ r, Yields files base seeds source r ∧
      Yields files base seeds (before ++ (text ++ rest)) r) ∧
    (Ended text ∨ rest = [] →
      ∃ r, Yields files base seeds source r ∧
        Yields files base seeds (before ++ (endLine text ++ rest)) r) ∧
    (¬ Ended text → rest ≠ [] → Merges before text rest) := by
  intro source
  -- the outcome is that of the pasted text, whichever it is
  obtain ⟨r, hpasted⟩ := exists_yields files base seeds (before ++ (text ++ rest))
  have hsource : Yields files base seeds source r :=
    hpasted.of_advance
      (advance_inclusion_alike hended hbefore htext hrest htail hfile seeds)
  refine ⟨⟨r, hsource, hpasted⟩, fun hcase => ⟨r, hsource, ?_⟩, merges_of_unended hended⟩
  by_cases hclosed : Ended text
  · rwa [endLine, if_pos hclosed]
  · -- the text is the end of the source, and without directives
    obtain rfl := hcase.resolve_left hclosed
    rw [List.append_nil] at hpasted
    rw [endLine, if_neg hclosed, List.append_nil, ← List.append_assoc]
    exact hpasted.concat (.append hended hbefore htext) (not_ended_append hclosed before)

/-- A file whose last line is a comment that is not ended. -/
def commentedFile : Files := fun path =>
  if path = .ofText "f" then .ok "nop # done".toUTF8.toList else .error .notFound

/-- **The line after the directive is lost in the comment**, and it would not be if every line of
the file were ended. -/
theorem commented_end_takes_line :
    Free "nop # done".toList ∧ Free "prn eax\n".toList ∧
    includeText commentedFile none "f" = .ok ("nop # done".toList, .ofText "f") ∧
    Yields commentedFile none .empty "%include f\nprn eax\n".toList
      (.ok ⟨#[⟨.nop, []⟩, .sentinel], 0, .empty, .empty⟩) ∧
    Yields commentedFile none .empty (endLine "nop # done".toList ++ "prn eax\n".toList)
      (.ok ⟨#[⟨.nop, []⟩, ⟨.prn, [.register 0]⟩, .sentinel], 0, .empty, .empty⟩) ∧
    ¬ ∃ r, Yields commentedFile none .empty "%include f\nprn eax\n".toList r ∧
      Yields commentedFile none .empty (endLine "nop # done".toList ++ "prn eax\n".toList) r := by
  have hsource : Yields commentedFile none .empty "%include f\nprn eax\n".toList
      (.ok ⟨#[⟨.nop, []⟩, .sentinel], 0, .empty, .empty⟩) :=
    @Yields.of_outcome _ _ _ _ _ 2 (by decide +kernel) (by simp)
  have hlines : Yields commentedFile none .empty (endLine "nop # done".toList ++ "prn eax\n".toList)
      (.ok ⟨#[⟨.nop, []⟩, ⟨.prn, [.register 0]⟩, .sentinel], 0, .empty, .empty⟩) :=
    @Yields.of_outcome _ _ _ _ _ 1 (by decide +kernel) (by simp)
  refine ⟨⟨by decide +kernel, by decide +kernel⟩, ⟨by decide +kernel, by decide +kernel⟩,
    by decide +kernel, hsource, hlines, ?_⟩
  rintro ⟨r, h, h'⟩
  exact absurd ((hsource.unique h).trans (h'.unique hlines)) (by decide)

/-- A file that ends within a mark. -/
def cutFile : Files := fun path =>
  if path = .ofText "f" then .ok "nop\n%def".toUTF8.toList else .error .notFound

/-- The definition arises where the file meets what follows. -/
theorem cutFile_pasted :
    Ended "start:\n".toList ∧ Free "start:\n".toList ∧ Free "nop\n%def".toList ∧
    Free "ine a 5\nprn a\n".toList ∧
    includeText cutFile none "f" = .ok ("nop\n%def".toList, .ofText "f") ∧
    (∃ r, Yields cutFile none .empty "start:\n%include f\nine a 5\nprn a\n".toList r ∧
      Yields cutFile none .empty "start:\nnop\n%define a 5\nprn a\n".toList r) ∧
    Merges "start:\n".toList "nop\n%def".toList "ine a 5\nprn a\n".toList ∧
    ∃ r, Yields cutFile none .empty "start:\n%include f\n".toList r ∧
      Yields cutFile none .empty "start:\nnop\n%def\n".toList r := by
  have hended : Ended "start:\n".toList := by decide
  have hbefore : Free "start:\n".toList := ⟨by decide +kernel, by decide +kernel⟩
  have htext : Free "nop\n%def".toList := ⟨by decide +kernel, by decide +kernel⟩
  have hrest : Free "ine a 5\nprn a\n".toList := ⟨by decide +kernel, by decide +kernel⟩
  have hfile : includeText cutFile none "f" = .ok ("nop\n%def".toList, .ofText "f") := by
    decide +kernel
  have hmiddle := @include_pastes_text cutFile none _ " f".toList _ _ _ hended hbefore htext hrest
    (by decide) hfile .empty
  have hlast := @include_pastes_text cutFile none _ " f".toList _ [] _ hended hbefore htext
    ⟨by decide, by decide⟩ (by decide) hfile .empty
  exact ⟨hended, hbefore, htext, hrest, hfile, hmiddle.1,
    hmiddle.2.2 (by decide) (by decide), hlast.2.1 (Or.inr rfl)⟩

end CellMachine.Assembly
