import CellMachine.Assembly.Token

/-!
# Tokens of a text

How a text splits into tokens, said from the side of the one who writes it. A token is a run of
characters that neither separate tokens nor start a comment (`IsToken`). Separators in front of a
line do not count (`words_cons_separator`), and a token ends at the separator after it
(`words_append_cons`). Lines that were put together with line feeds are found again
(`lines_intercalate`), unless the last of them is empty.
-/

namespace CellMachine.Assembly

/-- A character may stand in a token that is written as it is. -/
def isTokenChar (c : Char) : Bool := !isSeparator c && c != '#' && c != '\n'

/-- A run of characters is one token. -/
structure IsToken (w : List Char) : Prop where
  nonempty : w ≠ []
  chars : ∀ c ∈ w, isTokenChar c = true

theorem isTokenChar_iff {c : Char} :
    isTokenChar c = true ↔ isSeparator c = false ∧ c ≠ '#' ∧ c ≠ '\n' := by
  simp [isTokenChar, and_assoc]

/-! ### Words -/

theorem beforeComment_append {w : List Char} (h : ∀ c ∈ w, c ≠ '#') (rest : List Char) :
    beforeComment (w ++ rest) = w ++ beforeComment rest :=
  List.takeWhile_append_of_pos fun c hc => bne_iff_ne.mpr (h c hc)

theorem ne_hash_of_separator {c : Char} (hc : isSeparator c = true) : c ≠ '#' := by
  rintro rfl
  revert hc
  decide

theorem words_nil : words [] = [] := rfl

theorem words_cons_separator {c : Char} (hc : isSeparator c = true) (rest : List Char) :
    words (c :: rest) = words rest := by
  have hcut : beforeComment (c :: rest) = c :: beforeComment rest :=
    beforeComment_append (by simpa using ne_hash_of_separator hc : ∀ d ∈ [c], d ≠ '#') rest
  rw [words, hcut, Text.splitWhere, if_pos hc]
  rfl

theorem IsToken.ne_hash {w : List Char} (hw : IsToken w) : ∀ c ∈ w, c ≠ '#' :=
  fun c hc => (isTokenChar_iff.mp (hw.chars c hc)).2.1

theorem IsToken.not_separator {w : List Char} (hw : IsToken w) : ∀ c ∈ w, isSeparator c = false :=
  fun c hc => (isTokenChar_iff.mp (hw.chars c hc)).1

theorem IsToken.isEmpty_eq {w : List Char} (hw : IsToken w) : w.isEmpty = false :=
  List.isEmpty_eq_false_iff.mpr hw.nonempty

/-- A token ends at the separator after it. -/
theorem words_append_cons {w : List Char} (hw : IsToken w) {c : Char} (hc : isSeparator c = true)
    (rest : List Char) : words (w ++ c :: rest) = String.ofList w :: words rest := by
  have hcut : beforeComment (w ++ c :: rest) = w ++ c :: beforeComment rest := by
    rw [beforeComment_append hw.ne_hash, ← List.singleton_append, beforeComment_append]
    · rfl
    · simpa using ne_hash_of_separator hc
  rw [words, hcut, Text.splitWhere_append_cons hw.not_separator hc,
    List.filter_cons_of_pos (by simp [hw.isEmpty_eq]), List.map_cons]
  rfl

theorem words_token {w : List Char} (hw : IsToken w) : words w = [String.ofList w] := by
  have hcut : beforeComment w = w := by
    have h := beforeComment_append hw.ne_hash []
    have hnil : beforeComment [] = [] := rfl
    rwa [hnil, List.append_nil] at h
  rw [words, hcut, Text.splitWhere_of_free hw.not_separator,
    List.filter_cons_of_pos (by simp [hw.isEmpty_eq])]
  rfl

/-- Separators in front of a line do not count. -/
theorem words_append_separators {s : List Char} (hs : ∀ c ∈ s, isSeparator c = true)
    (rest : List Char) : words (s ++ rest) = words rest := by
  induction s with
  | nil => rfl
  | cons c s ih =>
    rw [List.forall_mem_cons] at hs
    rw [List.cons_append, words_cons_separator hs.1, ih hs.2]

/-- Tokens with a comma and a space between them. -/
theorem words_intercalate {ws : List (List Char)} (h : ∀ w ∈ ws, IsToken w) :
    words (", ".toList.intercalate ws) = ws.map String.ofList := by
  induction ws with
  | nil => rfl
  | cons w ws ih =>
    rw [List.forall_mem_cons] at h
    cases ws with
    | nil => rw [List.intercalate_singleton, words_token h.1, List.map_singleton]
    | cons w' ws =>
      have hcomma : ", ".toList = [',', ' '] := rfl
      rw [List.intercalate_cons_cons, hcomma, List.append_assoc, List.cons_append,
        words_append_cons h.1 rfl, List.singleton_append, words_cons_separator rfl, ← hcomma,
        ih h.2]
      rfl

/-! ### Lines -/

theorem exists_intercalate_eq_concat {ls : List (List Char)} (hne : ls ≠ [])
    (h : ∀ l ∈ ls, l ≠ [] ∧ '\n' ∉ l) :
    ∃ front c, ['\n'].intercalate ls = front ++ [c] ∧ c ≠ '\n' := by
  induction ls with
  | nil => exact absurd rfl hne
  | cons l ls ih =>
    rw [List.forall_mem_cons] at h
    cases ls with
    | nil =>
      refine ⟨l.dropLast, l.getLast h.1.1, ?_, ?_⟩
      · rw [List.intercalate_singleton, List.dropLast_concat_getLast]
      · exact fun hc => h.1.2 (hc ▸ List.getLast_mem h.1.1)
    | cons l' ls =>
      obtain ⟨front, c, hfront, hc⟩ := ih (List.cons_ne_nil _ _) h.2
      refine ⟨l ++ ['\n'] ++ front, c, ?_, hc⟩
      rw [List.intercalate_cons_cons, hfront, ← List.append_assoc]

/-- Lines that were put together are found again, if none of them is empty. -/
theorem lines_intercalate {ls : List (List Char)} (h : ∀ l ∈ ls, l ≠ [] ∧ '\n' ∉ l) :
    lines (['\n'].intercalate ls) = ls := by
  by_cases hne : ls = []
  · rw [hne]
    rfl
  · obtain ⟨front, c, hconcat, hc⟩ := exists_intercalate_eq_concat hne h
    -- the text does not end in a line feed, so nothing is dropped from it
    have hkept : dropFinalNewline (['\n'].intercalate ls) = ['\n'].intercalate ls := by
      rw [dropFinalNewline, hconcat, List.getLast?_concat, if_neg (by simpa using hc)]
    have hfull : (['\n'].intercalate ls).isEmpty = false := by
      rw [hconcat]
      simp
    rw [lines, hkept]
    simp only [hfull, Bool.false_eq_true, if_false]
    refine Text.splitWhere_intercalate rfl hne fun l hl c hc => ?_
    rw [beq_eq_false_iff_ne]
    exact fun heq => (h l hl).2 (heq ▸ hc)

/-- The tokens of lines that were put together. -/
theorem tokenize_intercalate {ls : List (List Char)} (h : ∀ l ∈ ls, l ≠ [] ∧ '\n' ∉ l) :
    tokenize .empty (String.ofList (['\n'].intercalate ls)) = ls.map words := by
  rw [tokenize, String.toList_ofList, lines_intercalate h]
  refine List.map_congr_left fun l _ => ?_
  -- without definitions a token stays as it is
  exact List.map_id _

end CellMachine.Assembly
