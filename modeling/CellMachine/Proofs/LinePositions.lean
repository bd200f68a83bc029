import CellMachine.Assembly.Token
import CellMachine.Proofs.InPlace
import Mathlib.Data.List.TakeWhile

/-!
# Definitions keep the positions of lines

A definition takes the rest of its line and leaves the line feed, so a text that includes nothing
has the same number of lines after its expansion, and what is said of a line is said of the line at
that place in the source. Definitions may stand anywhere, also in the middle of a line, in a
comment, or on a last line that is not ended. Of two on one line the first takes the second.

* `CutLine` is a line cut at its first definition. Every text is made of such lines
  (`exists_cutLines`).
* No mark has a line feed, so no mark arises where lines meet (`infix_textOf_iff`). A round finds
  the first line with a definition, and leaves of it what stands before the definition
  (`firstOccurrence?_textOf`).
* A definition can be entered if it has a key and a value and the key is new. `Enterable` says this
  of the definitions of all lines, one after the other, and `Offends` what is told of one that
  cannot be entered.
* `Expansion.Passed` is the invariant of the rounds: lines without directives were passed, and lines
  that include nothing are left. A round enters a definition and passes its line, or fails
  (`Expansion.Passed.advance_definition`); `Expansion.Passed.after` is what all rounds come to.
* `definitions_keep_lines` reads this off the lines of the source.
-/

namespace CellMachine.Assembly

/-! ### Lines -/

/-- A line of a text, cut at its first definition if it has one. -/
inductive CutLine where
  | bare (chars : List Char) (hline : '\n' ∉ chars) (hmark : ¬ defineMark <:+: chars)
  /-- Up to the last character of the mark there is no other one. -/
  | definition (before tail : List Char) (hline : '\n' ∉ before ++ tail)
      (hfirst : ¬ defineMark <:+: before ++ defineMark.dropLast)

namespace CutLine

def chars : CutLine → List Char
  | .bare chars _ _ => chars
  | .definition before tail _ _ => before ++ (defineMark ++ tail)

/-- What stands before the definition. -/
def before : CutLine → List Char
  | .bare chars _ _ => chars
  | .definition before _ _ _ => before

/-- What follows the mark of the definition, without the blanks at either end. -/
def argument? : CutLine → Option String
  | .bare _ _ _ => none
  | .definition _ tail _ _ => some (String.ofList (Text.trimChars tail))

theorem before_prefix_chars (l : CutLine) : l.before <+: l.chars := by
  cases l with
  | bare chars _ _ => exact List.prefix_refl _
  | definition before tail _ _ => exact List.prefix_append _ _

theorem newline_notMem_chars (l : CutLine) : '\n' ∉ l.chars := by
  cases l with
  | bare chars hline _ => exact hline
  | definition before tail hline _ =>
    rw [List.mem_append, not_or] at hline
    rw [chars, List.mem_append, List.mem_append, not_or, not_or]
    exact ⟨hline.1, by decide, hline.2⟩

/-- What is left of a line that includes nothing holds no directive. -/
theorem bare_before (l : CutLine) (h : ¬ includeMark <:+: l.chars) : Bare l.before where
  oneLine hc := l.newline_notMem_chars (l.before_prefix_chars.subset hc)
  noInclude hi := h (hi.trans l.before_prefix_chars.isInfix)
  noDefine hd := by
    cases l with
    | bare chars _ hmark => exact hmark hd
    | definition before tail _ hfirst =>
      exact hfirst (hd.trans (List.prefix_append _ _).isInfix)

theorem chars_of_bare (l : CutLine) (h : l.argument? = none) : l.chars = l.before := by
  cases l with
  | bare chars _ _ => rfl
  | definition => cases h

end CutLine

/-- The text of some lines. -/
def textOf (ls : List (List Char)) : List Char := ['\n'].intercalate ls

theorem textOf_singleton (l : List Char) : textOf [l] = l := List.intercalate_singleton

theorem textOf_cons (l : List Char) {ls : List (List Char)} (h : ls ≠ []) :
    textOf (l :: ls) = l ++ '\n' :: textOf ls := by
  rw [textOf, List.intercalate_cons_of_ne_nil h, List.append_assoc, List.singleton_append]
  rfl

/-- The arguments of the definitions of some lines, in the order of the lines. -/
def argumentsOf (ls : List CutLine) : List String := ls.filterMap CutLine.argument?

/-- The last line has a definition. -/
def EndsDefining (ls : List CutLine) : Prop := (ls.getLast?.bind CutLine.argument?).isSome = true

instance (ls : List CutLine) : Decidable (EndsDefining ls) := inferInstanceAs (Decidable (_ = true))

/-- After a definition on the last line there is one more line, which is empty. -/
def closing (ls : List CutLine) : List (List Char) := if EndsDefining ls then [[]] else []

/-- Every line can be cut at its first definition. -/
theorem exists_cutLine {line : List Char} (h : '\n' ∉ line) : ∃ l : CutLine, l.chars = line := by
  by_cases hmark : defineMark <:+: line
  · obtain ⟨before, tail, rfl, hfirst⟩ := Text.exists_first_of_infix (by decide) hmark
    refine ⟨.definition before tail (fun hc => h ?_) hfirst, rfl⟩
    rw [List.mem_append] at hc ⊢
    exact hc.imp_right (List.mem_append_right defineMark)
  · exact ⟨.bare line h hmark, rfl⟩

/-- Every text is made of lines. -/
theorem exists_cutLines (text : List Char) :
    ∃ ls : List CutLine, ls ≠ [] ∧ text = textOf (ls.map CutLine.chars) := by
  -- on the number of characters, line by line
  induction hlength : text.length using Nat.strongRecOn generalizing text with
  | ind n ih =>
    by_cases hnewline : '\n' ∈ text
    · obtain ⟨line, rest, rfl, hline⟩ := List.eq_append_cons_of_mem hnewline
      have hless : rest.length < n := by
        rw [← hlength, List.length_append, List.length_cons]
        omega
      obtain ⟨ls, hne, hrest⟩ := ih rest.length hless rest rfl
      obtain ⟨l, hl⟩ := exists_cutLine hline
      refine ⟨l :: ls, List.cons_ne_nil _ _, ?_⟩
      rw [List.map_cons, textOf_cons _ (by simpa using hne), ← hrest, hl]
    · obtain ⟨l, hl⟩ := exists_cutLine hnewline
      exact ⟨[l], List.cons_ne_nil _ _, by rw [List.map_singleton, textOf_singleton, hl]⟩

/-! ### Marks in joined lines -/

section Marks

variable {mark : List Char}

/-- A mark does not arise where lines meet. -/
theorem infix_textOf_iff (hne : mark ≠ []) (hd : '\n' ∉ mark) {ls : List (List Char)} :
    mark <:+: textOf ls ↔ ∃ l ∈ ls, mark <:+: l := by
  induction ls with
  | nil => simp [textOf, hne]
  | cons l ls ih =>
    cases ls with
    | nil => simp [textOf_singleton]
    | cons l' ls =>
      rw [textOf_cons l (List.cons_ne_nil _ _), Text.infix_append_cons_iff hne hd, ih]
      simp

/-- A directive takes the rest of its line, and the line feed after it if there is one. -/
theorem firstOccurrence?_first {before tail : List Char} (hne : mark ≠ [])
    (hfirst : ¬ mark <:+: before ++ mark.dropLast) (htail : '\n' ∉ tail) (rest : List Char)
    (hrest : ∀ c ∈ rest.head?, c = '\n') :
    firstOccurrence? mark (before ++ (mark ++ (tail ++ rest))) =
      some ⟨before.reverse, String.ofList (Text.trimChars tail), rest.drop 1⟩ := by
  have hall : ∀ c ∈ tail, (c != '\n') = true := fun c hc =>
    bne_iff_ne.mpr fun heq => htail (heq ▸ hc)
  have hends : rest.takeWhile (· != '\n') = [] ∧ rest.dropWhile (· != '\n') = rest := by
    cases rest with
    | nil => exact ⟨rfl, rfl⟩
    | cons c rest =>
      obtain rfl : c = '\n' := hrest c rfl
      exact ⟨rfl, rfl⟩
  rw [firstOccurrence?, Text.cutAt?_append hne hfirst, Option.map_some]
  dsimp only
  rw [List.takeWhile_append_of_pos hall, List.dropWhile_append_of_pos hall, hends.1, hends.2,
    List.append_nil]

/-- **The first directive of a text** is found after the lines without one. A line feed in its place
leaves the lines where they are; if it stands on the last line, an empty line is added. -/
theorem firstOccurrence?_textOf (hne : mark ≠ []) (hd : '\n' ∉ mark)
    {good : List (List Char)} (hgood : ∀ l ∈ good, ¬ mark <:+: l) {before tail : List Char}
    (hfirst : ¬ mark <:+: before ++ mark.dropLast) (htail : '\n' ∉ tail)
    (rest : List (List Char)) :
    ∃ o, firstOccurrence? mark
          (textOf (good ++ (before ++ (mark ++ tail)) :: rest)) = some o ∧
      o.argument = String.ofList (Text.trimChars tail) ∧
      o.replace ['\n'] =
        textOf (good ++ before :: ((if rest = [] then [[]] else []) ++ rest)) := by
  -- along the lines without the mark
  induction good with
  | nil =>
    cases rest with
    | nil =>
      have hfound := firstOccurrence?_first hne hfirst htail [] (by simp)
      rw [List.append_nil] at hfound
      rw [List.nil_append, textOf_singleton]
      exact ⟨_, hfound, rfl, by simp [Occurrence.replace, List.reverseAux_eq, textOf]⟩
    | cons l rest =>
      have hfound := firstOccurrence?_first hne hfirst htail
        ('\n' :: textOf (l :: rest)) (by simp)
      rw [List.nil_append, textOf_cons _ (List.cons_ne_nil _ _), List.append_assoc,
        List.append_assoc]
      exact ⟨_, hfound, rfl, by simp [Occurrence.replace, List.reverseAux_eq, textOf_cons]⟩
  | cons l good ih =>
    rw [List.forall_mem_cons] at hgood
    obtain ⟨o, hfound, hargument, hreplace⟩ := ih hgood.2
    refine ⟨o.after (l ++ ['\n']), ?_, hargument, ?_⟩
    · rw [List.cons_append, textOf_cons l (by simp), firstOccurrence?_line hne hd hgood.1, hfound,
        Option.map_some]
    · rw [Occurrence.replace_after, hreplace, List.cons_append, textOf_cons l (by simp),
        List.append_assoc, List.singleton_append]

/-- The line of a definition, after lines without one. -/
theorem CutLine.exists_occurrence (l : CutLine) {a : String} (h : l.argument? = some a)
    {good : List (List Char)} (hgood : ∀ l ∈ good, Bare l) (rest : List (List Char)) :
    ∃ o, firstOccurrence? defineMark (textOf (good ++ l.chars :: rest)) = some o ∧
      o.argument = a ∧
      o.replace ['\n'] =
        textOf (good ++ l.before :: ((if rest = [] then [[]] else []) ++ rest)) := by
  cases l with
  | bare => cases h
  | definition before tail hline hfirst =>
    obtain rfl := Option.some.inj h
    exact firstOccurrence?_textOf (by decide) (by decide) (fun l hl => (hgood l hl).noDefine) hfirst
      (fun hc => hline (List.mem_append_right before hc)) rest

end Marks

/-! ### Entering definitions -/

/-- The key and the value of a definition: the first space of its argument ends the key, and the
blanks around the value do not count. -/
def entryOf (argument : String) : String × String :=
  let key := argument.toList.takeWhile (· != ' ')
  (String.ofList key, String.ofList (Text.trimChars (argument.toList.drop (key.length + 1))))

theorem entryOf_append {key : List Char} (hkey : ' ' ∉ key) (value : List Char) :
    entryOf (String.ofList (key ++ ' ' :: value)) =
      (String.ofList key, String.ofList (Text.trimChars value)) := by
  have hall : ∀ c ∈ key, (c != ' ') = true := fun c hc => bne_iff_ne.mpr fun heq => hkey (heq ▸ hc)
  have htake : (key ++ ' ' :: value).takeWhile (· != ' ') = key := by
    rw [List.takeWhile_append_of_pos hall]
    simp
  simp only [entryOf, String.toList_ofList, htake]
  simp

/-- Every definition has a key and a value, the keys differ, and none is present. -/
def Enterable (t : Table String) (arguments : List String) : Prop :=
  (∀ a ∈ arguments, ' ' ∈ a.toList) ∧ t.Admits (arguments.map fun a => (entryOf a).1)

instance (t : Table String) (arguments : List String) : Decidable (Enterable t arguments) :=
  inferInstanceAs (Decidable (_ ∧ _))

/-- A definition cannot be entered into a table, and what is told of it. -/
inductive Offends (t : Table String) : String → DirectiveFault → Prop
  | empty : Offends t "" .emptyDefine
  | unvalued {a : String} (hne : a ≠ "") (h : ' ' ∉ a.toList) :
      Offends t a (.defineWithoutValue a)
  | duplicate {a old : String} (h : ' ' ∈ a.toList) (hfind : t.find? (entryOf a).1 = some old) :
      Offends t a (.duplicateDefine (entryOf a).1 old (entryOf a).2)

section Entering

variable {t : Table String} {a : String}

theorem enterable_nil (t : Table String) : Enterable t [] :=
  ⟨fun _ h => absurd h List.not_mem_nil, Table.admits_nil t⟩

theorem enterable_cons_iff {arguments : List String} :
    Enterable t (a :: arguments) ↔
      (' ' ∈ a.toList ∧ t.find? (entryOf a).1 = none) ∧
        Enterable (t.extend [entryOf a]) arguments := by
  rw [Enterable, Enterable, List.forall_mem_cons, List.map_cons,
    Table.admits_cons_iff (entryOf a).2]
  grind

theorem enterable_append_iff {front back : List String} :
    Enterable t (front ++ back) ↔
      Enterable t front ∧ Enterable (t.extend (front.map entryOf)) back := by
  induction front generalizing t with
  | nil => simp [enterable_nil]
  | cons a front ih =>
    rw [List.cons_append, enterable_cons_iff, enterable_cons_iff, ih, Table.extend_extend]
    exact and_assoc.symm

/-- A definition is entered last, or it is told what is wrong with it. -/
theorem addDefinition_cases (t : Table String) (a : String) :
    (' ' ∈ a.toList ∧ t.find? (entryOf a).1 = none ∧
        addDefinition t a = .ok (t.extend [entryOf a])) ∨
      ∃ fault, Offends t a fault ∧ addDefinition t a = .error fault := by
  by_cases hspace : ' ' ∈ a.toList
  · obtain ⟨key, value, hargument, hkey⟩ := List.eq_append_cons_of_mem hspace
    have hentry : splitDefinition a = .ok (entryOf a) := by
      rw [← String.ofList_toList (s := a), hargument, splitDefinition_eq hkey rfl,
        entryOf_append hkey]
    rw [addDefinition, hentry]
    dsimp only
    cases hfind : t.find? (entryOf a).1 with
    | none => exact Or.inl ⟨hspace, rfl, by rw [Table.insert_eq_extend hfind]⟩
    | some old => exact Or.inr ⟨_, .duplicate hspace hfind, rfl⟩
  · -- nothing is left for the value
    have hdrop : a.toList.dropWhile (· != ' ') = [] := by
      rw [List.dropWhile_eq_nil_iff]
      exact fun c hc => bne_iff_ne.mpr fun heq => hspace (heq ▸ hc)
    by_cases hempty : a = ""
    · subst hempty
      exact Or.inr ⟨_, .empty, rfl⟩
    · have hne : ¬ a.isEmpty = true := by rwa [String.isEmpty_iff]
      rw [addDefinition, splitDefinition, if_neg hne, hdrop]
      exact Or.inr ⟨_, .unvalued hempty hspace, rfl⟩

/-- What can be entered does not offend. -/
theorem Offends.not_enterable {fault : DirectiveFault} (h : Offends t a fault)
    (arguments : List String) : ¬ Enterable t (a :: arguments) := by
  rw [enterable_cons_iff]
  rintro ⟨⟨hspace, hnone⟩, -⟩
  cases h with
  | empty => cases hspace
  | unvalued _ h => exact h hspace
  | duplicate _ hfind => rw [hfind] at hnone; cases hnone

end Entering

/-! ### Rounds -/

namespace Expansion

variable {files : Files.Live} {base : Option Files.Path} {e : Expansion}

/-- **One round** on a text that includes nothing, at its first definition. -/
theorem advance_of_definition {o : Occurrence} (hstatus : e.status = .expanding)
    (hinclude : ¬ includeMark <:+: e.text) (hdefine : firstOccurrence? defineMark e.text = some o) :
    e.advance files base =
      match addDefinition e.defines o.argument with
      | .error fault => { e with status := .failed fault }
      | .ok defines => { e with text := o.replace ['\n'], defines } := by
  rw [advance_of_includes_nothing hstatus hinclude, replaceDefine, hdefine]
  dsimp only
  cases addDefinition e.defines o.argument with
  | error fault => rfl
  | ok defines => rfl

/-- The expansion goes on. Lines without directives were passed, and lines that include nothing are
left. -/
structure Passed (good : List (List Char)) (ls : List CutLine) (e : Expansion) : Prop where
  status : e.status = .expanding
  text : e.text = textOf (good ++ ls.map CutLine.chars)
  good : ∀ l ∈ good, Bare l
  left : ∀ l ∈ ls, ¬ includeMark <:+: l.chars

namespace Passed

variable {good : List (List Char)} {l : CutLine} {ls : List CutLine} {a : String}

theorem noInclude (h : Passed good ls e) : ¬ includeMark <:+: e.text := by
  rw [h.text, infix_textOf_iff (by decide) (by decide)]
  rintro ⟨line, hline, hmark⟩
  rcases List.mem_append.mp hline with hline | hline
  · exact (h.good line hline).noInclude hmark
  · obtain ⟨l, hl, rfl⟩ := List.mem_map.mp hline
    exact h.left l hl hmark

theorem noDefine (h : Passed good [] e) : ¬ defineMark <:+: e.text := by
  rw [h.text, List.map_nil, List.append_nil, infix_textOf_iff (by decide) (by decide)]
  exact fun ⟨line, hline, hmark⟩ => (h.good line hline).noDefine hmark

/-- What is left of a line joins the lines that were passed. -/
theorem bare_concat (h : Passed good (l :: ls) e) : ∀ line ∈ good ++ [l.before], Bare line := by
  rw [List.forall_mem_append, List.forall_mem_singleton]
  exact ⟨h.good, l.bare_before (h.left l List.mem_cons_self)⟩

/-- A line without a definition is passed. -/
theorem pass (h : Passed good (l :: ls) e) (hl : l.argument? = none) :
    Passed (good ++ [l.before]) ls e where
  status := h.status
  text := by rw [h.text, List.map_cons, l.chars_of_bare hl, List.append_cons]
  good := h.bare_concat
  left l' hl' := h.left l' (List.mem_cons_of_mem l hl')

/-- **A round at a definition** enters it and passes its line, or tells what is wrong with it. If
the line is the last one, an empty line is passed too. -/
theorem advance_definition (h : Passed good (l :: ls) e) (hl : l.argument? = some a) :
    (' ' ∈ a.toList ∧ e.defines.find? (entryOf a).1 = none ∧
      ∃ text, e.advance files base = { e with text, defines := e.defines.extend [entryOf a] } ∧
        Passed (good ++ [l.before] ++ (if ls = [] then [[]] else [])) ls
          { e with text, defines := e.defines.extend [entryOf a] }) ∨
      ∃ fault, Offends e.defines a fault ∧
        e.advance files base = { e with status := .failed fault } := by
  obtain ⟨o, hfound, rfl, hreplace⟩ := l.exists_occurrence hl h.good (ls.map CutLine.chars)
  rw [← List.map_cons, ← h.text] at hfound
  rw [advance_of_definition h.status h.noInclude hfound]
  rcases addDefinition_cases e.defines o.argument with ⟨hspace, hnone, hadd⟩ |
    ⟨fault, hoffends, hadd⟩
  · refine Or.inl ⟨hspace, hnone, o.replace ['\n'], by rw [hadd], ?_⟩
    refine ⟨h.status, ?_, ?_, fun l' hl' => h.left l' (List.mem_cons_of_mem l hl')⟩
    · -- the line feed in place of the definition stands where the line ended
      simp only [List.map_eq_nil_iff] at hreplace
      rw [List.append_assoc, ← List.append_cons]
      exact hreplace
    · rw [List.forall_mem_append]
      refine ⟨h.bare_concat, ?_⟩
      split
      · rw [List.forall_mem_singleton]
        decide
      · exact List.forall_mem_nil _
  · exact Or.inr ⟨fault, hoffends, by rw [hadd]⟩

end Passed

end Expansion

/-! ### Whole texts -/

/-- The definitions of some lines were entered up to the first that could not be. -/
def FailsAtFirst (seeds : Table String) (ls : List CutLine) (e : Expansion) : Prop :=
  ∃ front bad back a fault, ls = front ++ bad :: back ∧ bad.argument? = some a ∧
    Enterable seeds (argumentsOf front) ∧
    Offends (seeds.extend ((argumentsOf front).map entryOf)) a fault ∧
    e.status = .failed fault ∧ e.defines = seeds.extend ((argumentsOf front).map entryOf)

section Lines

variable {seeds : Table String} {l : CutLine} {ls : List CutLine} {e : Expansion} {a : String}

theorem argumentsOf_cons_bare (hl : l.argument? = none) :
    argumentsOf (l :: ls) = argumentsOf ls :=
  List.filterMap_cons_none hl

theorem argumentsOf_cons_definition (hl : l.argument? = some a) :
    argumentsOf (l :: ls) = a :: argumentsOf ls :=
  List.filterMap_cons_some hl

theorem FailsAtFirst.cons_bare (h : FailsAtFirst seeds ls e) (hl : l.argument? = none) :
    FailsAtFirst seeds (l :: ls) e := by
  obtain ⟨front, bad, back, a, fault, rfl, hbad, hfront⟩ := h
  refine ⟨l :: front, bad, back, a, fault, rfl, hbad, ?_⟩
  rwa [argumentsOf_cons_bare hl]

theorem FailsAtFirst.cons_entered (h : FailsAtFirst (seeds.extend [entryOf a]) ls e)
    (hl : l.argument? = some a) (ha : ' ' ∈ a.toList ∧ seeds.find? (entryOf a).1 = none) :
    FailsAtFirst seeds (l :: ls) e := by
  obtain ⟨front, bad, back, a', fault, rfl, hbad, hfront, hrest⟩ := h
  refine ⟨l :: front, bad, back, a', fault, rfl, hbad, ?_⟩
  rw [argumentsOf_cons_definition hl, enterable_cons_iff]
  rw [Table.extend_extend] at hrest
  exact ⟨⟨ha, hfront⟩, hrest⟩

/-- Lines whose definitions can be entered do not fail. -/
theorem FailsAtFirst.not_enterable (h : FailsAtFirst seeds ls e) :
    ¬ Enterable seeds (argumentsOf ls) := by
  obtain ⟨front, bad, back, a, fault, rfl, hbad, -, hoffends, -⟩ := h
  have harguments : argumentsOf (front ++ bad :: back) =
      argumentsOf front ++ a :: argumentsOf back := by
    rw [← argumentsOf_cons_definition hbad]
    exact List.filterMap_append
  rw [harguments, enterable_append_iff]
  exact fun henterable => hoffends.not_enterable _ henterable.2

theorem closing_cons_bare (hl : l.argument? = none) : closing (l :: ls) = closing ls := by
  cases ls with
  | nil => simp [closing, EndsDefining, hl]
  | cons l' ls => rfl

/-- The empty line that a definition on the last line adds. -/
theorem closing_cons_definition (hl : l.argument? = some a) :
    ls.map CutLine.before ++ closing (l :: ls) =
      (if ls = [] then [[]] else []) ++ (ls.map CutLine.before ++ closing ls) := by
  cases ls with
  | nil => simp [closing, EndsDefining, hl]
  | cons l' ls => rfl

end Lines

/-- **All rounds**: one for each definition, and one that finds none. -/
theorem Expansion.Passed.after {files : Files.Live} {base : Option Files.Path} {e : Expansion}
    {good : List (List Char)} {ls : List CutLine} (h : Passed good ls e) {rounds : Nat}
    (hrounds : (argumentsOf ls).length < rounds) :
    (Enterable e.defines (argumentsOf ls) ∧
      e.after files base rounds =
        { e with
          text := textOf (good ++ (ls.map CutLine.before ++ closing ls))
          defines := e.defines.extend ((argumentsOf ls).map entryOf)
          status := .finished }) ∨
    FailsAtFirst e.defines ls (e.after files base rounds) := by
  -- along the lines that are left; only those with a definition take a round
  induction ls generalizing good e rounds with
  | nil =>
    obtain ⟨rounds, rfl⟩ := Nat.exists_eq_succ_of_ne_zero (Nat.ne_zero_of_lt hrounds)
    refine Or.inl ⟨enterable_nil _, ?_⟩
    rw [after_of_free h.status h.noInclude h.noDefine]
    simp [argumentsOf, closing, EndsDefining, h.text]
  | cons l ls ih =>
    cases hl : l.argument? with
    | none =>
      rw [argumentsOf_cons_bare hl] at hrounds ⊢
      rcases ih (h.pass hl) hrounds with ⟨henter, hafter⟩ | hfails
      · refine Or.inl ⟨henter, ?_⟩
        rw [hafter, closing_cons_bare hl, List.map_cons, List.cons_append, ← List.append_cons]
      · exact Or.inr (hfails.cons_bare hl)
    | some a =>
      rw [argumentsOf_cons_definition hl] at hrounds ⊢
      obtain ⟨rounds, rfl⟩ := Nat.exists_eq_succ_of_ne_zero (Nat.ne_zero_of_lt hrounds)
      rw [List.length_cons, Nat.add_lt_add_iff_right] at hrounds
      rw [after_succ h.status, enterable_cons_iff]
      rcases h.advance_definition hl with ⟨hspace, hnone, text, hadvance, hpassed⟩ |
        ⟨fault, hoffends, hadvance⟩
      · rw [hadvance]
        rcases ih hpassed hrounds with ⟨henter, hafter⟩ | hfails
        · refine Or.inl ⟨⟨⟨hspace, hnone⟩, henter⟩, ?_⟩
          rw [hafter, Table.extend_extend, List.append_assoc, ← closing_cons_definition hl,
            ← List.append_cons]
          rfl
        · exact Or.inr (hfails.cons_entered hl ⟨hspace, hnone⟩)
      · -- the definition is the first that is left, so none was entered before it
        rw [hadvance, after_of_stopped ExpansionStatus.noConfusion]
        refine Or.inr ⟨[], l, ls, a, fault, rfl, hl, enterable_nil _, ?_, rfl, ?_⟩
        · exact (Table.extend_nil e.defines).symm ▸ hoffends
        · exact (Table.extend_nil e.defines).symm

/-! ### Lines of a text -/

theorem splitWhere_textOf {ls : List (List Char)} (hne : ls ≠ []) (h : ∀ l ∈ ls, '\n' ∉ l) :
    Text.splitWhere (· == '\n') (textOf ls) = ls := by
  refine Text.splitWhere_intercalate rfl hne fun l hl c hc => ?_
  rw [beq_eq_false_iff_ne]
  rintro rfl
  exact h l hl hc

theorem textOf_concat_nil {ls : List (List Char)} (h : ls ≠ []) :
    textOf (ls ++ [[]]) = textOf ls ++ ['\n'] := by
  induction ls with
  | nil => exact absurd rfl h
  | cons l ls ih =>
    cases ls with
    | nil => simp [textOf]
    | cons l' ls =>
      have hne := List.cons_ne_nil l' ls
      rw [List.cons_append, textOf_cons l (by simp), ih hne, textOf_cons l hne, List.append_assoc,
        List.cons_append]

theorem dropFinalNewline_concat (text : List Char) : dropFinalNewline (text ++ ['\n']) = text := by
  rw [dropFinalNewline, List.getLast?_concat, if_pos rfl, List.dropLast_concat]

/-- A line feed at the end of a text ends its last line. -/
theorem lines_concat_prefix_splitWhere (text : List Char) :
    lines (text ++ ['\n']) <+: Text.splitWhere (· == '\n') text := by
  simp only [lines, dropFinalNewline_concat]
  split
  · exact List.nil_prefix
  · exact List.prefix_refl _

/-- The lines of a text are those between its line feeds, or all but the last of them. -/
theorem lines_prefix_splitWhere (text : List Char) :
    lines text <+: Text.splitWhere (· == '\n') text := by
  by_cases hlast : text.getLast? = some '\n'
  · obtain ⟨text, rfl⟩ := List.getLast?_eq_some_iff.mp hlast
    rw [Text.splitWhere_append_cut rfl]
    exact (lines_concat_prefix_splitWhere text).trans (List.prefix_append _ _)
  · simp only [lines, dropFinalNewline, if_neg hlast]
    split
    · exact List.nil_prefix
    · exact List.prefix_refl _

/-- The expansion has finished. What stands before the definitions stays at its line, a definition
on the last line leaves one more line feed, and the definitions were entered in the order of their
lines. -/
structure KeepsLines (seeds : Table String) (ls : List CutLine) (e : Expansion) : Prop where
  status : e.status = .finished
  text : e.text = textOf (ls.map CutLine.before) ++ if EndsDefining ls then ['\n'] else []
  line : ∀ (k : Nat) (l : CutLine), ls[k]? = some l →
    (Text.splitWhere (· == '\n') e.text)[k]? = some l.before
  /-- A line of the result that is read for tokens is told by its place in the source. -/
  read : ∀ (k : Nat) (line : List Char), (lines e.text)[k]? = some line →
    ∃ l : CutLine, ls[k]? = some l ∧ line = l.before
  noDefine : ¬ defineMark <:+: e.text
  defines : e.defines = seeds.extend ((argumentsOf ls).map entryOf)

section Whole

variable {ls : List CutLine}

theorem newline_notMem_before : ∀ line ∈ ls.map CutLine.before, '\n' ∉ line := by
  intro line hline hc
  obtain ⟨l, -, rfl⟩ := List.mem_map.mp hline
  exact l.newline_notMem_chars (l.before_prefix_chars.subset hc)

theorem textOf_closing (hne : ls ≠ []) :
    textOf (ls.map CutLine.before ++ closing ls) =
      textOf (ls.map CutLine.before) ++ if EndsDefining ls then ['\n'] else [] := by
  rw [closing]
  split
  · exact textOf_concat_nil (by simpa using hne)
  · rw [List.append_nil, List.append_nil]

/-- The lines between the line feeds of the result. -/
theorem splitWhere_closing (hne : ls ≠ []) :
    Text.splitWhere (· == '\n') (textOf (ls.map CutLine.before ++ closing ls)) =
      ls.map CutLine.before ++ closing ls := by
  refine splitWhere_textOf (by simp [hne]) ?_
  rw [List.forall_mem_append]
  refine ⟨newline_notMem_before, ?_⟩
  rw [closing]
  split
  · rw [List.forall_mem_singleton]
    exact List.not_mem_nil
  · exact List.forall_mem_nil _

/-- No line is read that is not one of the source. -/
theorem lines_closing_prefix_before (hne : ls ≠ []) :
    lines (textOf (ls.map CutLine.before ++ closing ls)) <+: ls.map CutLine.before := by
  have hsplit := splitWhere_textOf (by simpa using hne) (@newline_notMem_before ls)
  rw [textOf_closing hne]
  split
  · have hread := lines_concat_prefix_splitWhere (textOf (ls.map CutLine.before))
    rwa [hsplit] at hread
  · have hread := lines_prefix_splitWhere (textOf (ls.map CutLine.before))
    rwa [hsplit, ← List.append_nil (textOf _)] at hread

/-- What is left of lines that include nothing defines nothing. -/
theorem not_defineMark_infix_closing (hls : ∀ l ∈ ls, ¬ includeMark <:+: l.chars) :
    ¬ defineMark <:+: textOf (ls.map CutLine.before ++ closing ls) := by
  rw [infix_textOf_iff (by decide) (by decide)]
  rintro ⟨line, hline, hmark⟩
  rcases List.mem_append.mp hline with hline | hline
  · obtain ⟨l, hl, rfl⟩ := List.mem_map.mp hline
    exact (l.bare_before (hls l hl)).noDefine hmark
  · rw [closing] at hline
    split at hline
    · obtain rfl := List.mem_singleton.mp hline
      exact absurd (List.infix_nil.mp hmark) (by decide)
    · cases hline

theorem KeepsLines.of_text {seeds : Table String} {e : Expansion} (hne : ls ≠ [])
    (hls : ∀ l ∈ ls, ¬ includeMark <:+: l.chars) (hstatus : e.status = .finished)
    (htext : e.text = textOf (ls.map CutLine.before ++ closing ls))
    (hdefines : e.defines = seeds.extend ((argumentsOf ls).map entryOf)) :
    KeepsLines seeds ls e where
  status := hstatus
  text := by rw [htext, textOf_closing hne]
  line k l hl := by
    rw [htext, splitWhere_closing hne, List.getElem?_append_left, List.getElem?_map, hl,
      Option.map_some]
    rw [List.length_map]
    exact (List.getElem?_eq_some_iff.mp hl).1
  read k line hline := by
    rw [htext] at hline
    obtain ⟨unread, hbefore⟩ := lines_closing_prefix_before hne
    have hline' : (ls.map CutLine.before)[k]? = some line := by
      rw [← hbefore, List.getElem?_append_left (List.getElem?_eq_some_iff.mp hline).1, hline]
    rw [List.getElem?_map, Option.map_eq_some_iff] at hline'
    obtain ⟨l, hl, rfl⟩ := hline'
    exact ⟨l, hl, rfl⟩
  noDefine := htext ▸ not_defineMark_infix_closing hls
  defines := hdefines

end Whole

/-- **Definitions keep the positions of lines.** A text that includes nothing is made of lines. If
its definitions can be entered, every line stays where it was, without its definition; otherwise the
expansion fails at the first definition that cannot be entered. Either way it has stopped after one
round for each definition and one more. -/
theorem definitions_keep_lines {source : String} (h : ¬ includeMark <:+: source.toList) :
    (∃ ls : List CutLine, ls ≠ [] ∧ source.toList = textOf (ls.map CutLine.chars)) ∧
    ∀ ls : List CutLine, ls ≠ [] → source.toList = textOf (ls.map CutLine.chars) →
      Text.splitWhere (· == '\n') source.toList = ls.map CutLine.chars ∧
      ∀ files base seeds log rounds, (argumentsOf ls).length < rounds →
        (Enterable seeds (argumentsOf ls) →
          KeepsLines seeds ls ((Expansion.start source seeds log).after files base rounds)) ∧
        (¬ Enterable seeds (argumentsOf ls) →
          FailsAtFirst seeds ls ((Expansion.start source seeds log).after files base rounds)) := by
  refine ⟨exists_cutLines source.toList, ?_⟩
  intro ls hne htext
  have hls : ∀ l ∈ ls, ¬ includeMark <:+: l.chars := by
    rw [htext, infix_textOf_iff (by decide) (by decide)] at h
    exact fun l hl hmark => h ⟨l.chars, List.mem_map_of_mem hl, hmark⟩
  constructor
  · rw [htext]
    refine splitWhere_textOf (by simpa using hne) fun line hline => ?_
    obtain ⟨l, -, rfl⟩ := List.mem_map.mp hline
    exact l.newline_notMem_chars
  intro files base seeds log rounds hrounds
  have hpassed : Expansion.Passed [] ls (Expansion.start source seeds log) :=
    ⟨rfl, htext, List.forall_mem_nil _, hls⟩
  -- the rounds come to one of two ends, and whether the definitions can be entered tells which
  rcases hpassed.after hrounds with ⟨henter, hafter⟩ | hfails
  · refine ⟨fun _ => ?_, fun hnot => absurd henter hnot⟩
    rw [hafter]
    exact .of_text hne hls rfl rfl rfl
  · exact ⟨fun henter => absurd henter hfails.not_enterable, fun _ => hfails⟩

/-- A definition in a comment, which takes another one, and one after an instruction on a last line
that is not ended. -/
def midwayLines : List CutLine :=
  [.definition "nop # ".toList " a 1 %define b 2".toList (by decide) (by decide +kernel),
    .bare "ret".toList (by decide) (by decide +kernel),
    .definition "prn c".toList " c  x y ".toList (by decide) (by decide +kernel)]

def midwaySource : String := "nop # %define a 1 %define b 2\nret\nprn c%define c  x y "

/-- With a value for `c` at the start, the definition of `a` is entered and that of `c` is not. -/
theorem midwaySource_keeps_lines :
    ¬ includeMark <:+: midwaySource.toList ∧
    midwaySource.toList = textOf (midwayLines.map CutLine.chars) ∧
    Enterable .empty (argumentsOf midwayLines) ∧
    ¬ Enterable ⟨[("c", "0")]⟩ (argumentsOf midwayLines) ∧
    ∀ files base log rounds, 2 < rounds →
      KeepsLines .empty midwayLines
        ((Expansion.start midwaySource .empty log).after files base rounds) ∧
      FailsAtFirst ⟨[("c", "0")]⟩ midwayLines
        ((Expansion.start midwaySource ⟨[("c", "0")]⟩ log).after files base rounds) := by
  have hinclude : ¬ includeMark <:+: midwaySource.toList := by decide +kernel
  have htext : midwaySource.toList = textOf (midwayLines.map CutLine.chars) := by decide +kernel
  have henter : Enterable .empty (argumentsOf midwayLines) := by decide +kernel
  have hnot : ¬ Enterable ⟨[("c", "0")]⟩ (argumentsOf midwayLines) := by decide +kernel
  refine ⟨hinclude, htext, henter, hnot, ?_⟩
  intro files base log rounds hrounds
  have hall := ((definitions_keep_lines hinclude).2 midwayLines (List.cons_ne_nil _ _) htext).2
  exact ⟨(hall files base .empty log rounds hrounds).1 henter,
    (hall files base ⟨[("c", "0")]⟩ log rounds hrounds).2 hnot⟩

end CellMachine.Assembly
