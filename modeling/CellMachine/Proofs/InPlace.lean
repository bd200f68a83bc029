import CellMachine.Proofs.Directives

/-!
# Expansion in place

An expansion replaces the first `%include` of a text and then its first `%define`, over and over.
Where directives stand at the start of a line and files do not include themselves, this is the same
as expanding every line in its place: a line that includes a file becomes the expansion of that
file, and a line that defines a name becomes a bare line feed.

`InPlace` is expansion in place, as a relation between a text, what it becomes and the definitions
in the order of their lines. Rounds take directives in another order and come to the same
(`rounds_expand_in_place`). Three things are shown for this:

* a round finds a directive exactly if there is one, and what is left has the same expansion in
  place (`InPlace.include_step`, `InPlace.define_step`);
* hence every round but the last one lowers the number of inclusions and definitions that are still
  to come (`Expansion.advance_inPlace`);
* an orderly text has an expansion in place (`Orderly.exists_inPlace`), by induction on the rank of
  files and on the lines of a text.

The definitions are entered in an order of the rounds, and are a permutation of those in place.
-/

namespace CellMachine.Assembly

variable {files : Files.Live} {base : Option Files.Path}

/-! ### Expansion in place -/

/-- A name to include stands for a text, whatever was logged before. -/
def Provides (files : Files.Live) (base : Option Files.Path) (name : String) (path : Files.Path)
    (text : List Char) : Prop :=
  ∀ log, includeText (files log) base name = .ok (text, path)

/-- A part of one line in which no directive is found. -/
structure Bare (line : List Char) : Prop where
  oneLine : '\n' ∉ line
  noInclude : ¬ includeMark <:+: line
  noDefine : ¬ defineMark <:+: line

/-- A text becomes another when every line is expanded in its place, by a number of inclusions and
with definitions in the order of their lines. -/
inductive InPlace (files : Files.Live) (base : Option Files.Path) :
    Nat → List Char → List Char → List (String × String) → Prop
  | nil : InPlace files base 0 [] [] []
  | line {k : Nat} {line rest out : List Char} {pairs : List (String × String)} (hline : Bare line)
      (hrest : InPlace files base k rest out pairs) :
      InPlace files base k (line ++ '\n' :: rest) (line ++ '\n' :: out) pairs
  | inclusion {k k' : Nat} {tail text rest out out' : List Char} {path : Files.Path}
      {pairs pairs' : List (String × String)} (htail : Bare tail)
      (hfile : Provides files base (String.ofList (Text.trimChars tail)) path text)
      (htext : InPlace files base k text out pairs)
      (hrest : InPlace files base k' rest out' pairs') :
      InPlace files base (k + k' + 1) (includeMark ++ (tail ++ '\n' :: rest)) (out ++ out')
        (pairs ++ pairs')
  | definition {k : Nat} {tail key value rest out : List Char} {pairs : List (String × String)}
      (htail : Bare tail) (hkey : ' ' ∉ key) (hargument : Text.trimChars tail = key ++ ' ' :: value)
      (hrest : InPlace files base k rest out pairs) :
      InPlace files base k (defineMark ++ (tail ++ '\n' :: rest)) ('\n' :: out)
        ((String.ofList key, String.ofList (Text.trimChars value)) :: pairs)

instance (line : List Char) : Decidable (Bare line) :=
  decidable_of_iff
    ('\n' ∉ line ∧ Text.cutAt? includeMark line = none ∧ Text.cutAt? defineMark line = none)
    (by
      simp only [Text.cutAt?_eq_none_iff]
      exact ⟨fun h => ⟨h.1, h.2.1, h.2.2⟩, fun h => ⟨h.oneLine, h.noInclude, h.noDefine⟩⟩)

/-! ### Marks in lines -/

theorem not_infix_append {mark front tail : List Char} {c : Char} (hfront : c ∉ front)
    (htail : ¬ c :: mark <:+: tail) : ¬ c :: mark <:+: front ++ tail := by
  induction front with
  | nil => exact htail
  | cons d front ih =>
    rw [List.mem_cons, not_or] at hfront
    rw [List.cons_append, List.infix_cons_iff, not_or]
    refine ⟨?_, ih hfront.2⟩
    rintro ⟨rest, hrest⟩
    exact hfront.1 (List.cons.inj hrest).1

/-- The line of a definition includes nothing. A mark begins with the only percent sign that it has,
so no other mark is found across its end. -/
theorem not_includeMark_infix {tail : List Char} (h : ¬ includeMark <:+: tail) :
    ¬ includeMark <:+: defineMark ++ tail := by
  have hmark : defineMark ++ tail = '%' :: ("define".toList ++ tail) := rfl
  rw [hmark, List.infix_cons_iff, not_or]
  refine ⟨?_, not_infix_append (by decide) h⟩
  rintro ⟨rest, hrest⟩
  cases hrest

/-- The line of an inclusion defines nothing. -/
theorem not_defineMark_infix {tail : List Char} (h : ¬ defineMark <:+: tail) :
    ¬ defineMark <:+: includeMark ++ tail := by
  have hmark : includeMark ++ tail = '%' :: ("include".toList ++ tail) := rfl
  rw [hmark, List.infix_cons_iff, not_or]
  refine ⟨?_, not_infix_append (by decide) h⟩
  rintro ⟨rest, hrest⟩
  cases hrest

theorem splitDefinition_eq {argument key value : List Char} (hkey : ' ' ∉ key)
    (h : argument = key ++ ' ' :: value) :
    splitDefinition (String.ofList argument) =
      .ok (String.ofList key, String.ofList (Text.trimChars value)) := by
  have hall : ∀ c ∈ key, (c != ' ') = true := fun c hc => bne_iff_ne.mpr fun heq => hkey (heq ▸ hc)
  have htake : argument.takeWhile (· != ' ') = key := by
    rw [h, List.takeWhile_append_of_pos hall]
    simp
  have hdrop : argument.dropWhile (· != ' ') = ' ' :: value := by
    rw [h, List.dropWhile_append_of_pos hall]
    simp
  have hne : ¬ (String.ofList argument).isEmpty = true := by
    rw [String.isEmpty_iff, ← String.toList_inj, String.toList_ofList, h]
    simp
  rw [splitDefinition, if_neg hne, String.toList_ofList, hdrop, htake]

/-! ### One directive of a text -/

namespace InPlace

variable {k : Nat} {text out : List Char} {pairs : List (String × String)}

/-- Texts are expanded one after the other. -/
theorem append {k' : Nat} {text' out' : List Char} {pairs' : List (String × String)}
    (h : InPlace files base k text out pairs) (h' : InPlace files base k' text' out' pairs') :
    InPlace files base (k + k') (text ++ text') (out ++ out') (pairs ++ pairs') := by
  -- along the lines of the first text
  induction h with
  | nil =>
    rw [Nat.zero_add]
    exact h'
  | line hline _ ih =>
    rw [List.append_assoc, List.append_assoc, List.cons_append, List.cons_append]
    exact .line hline ih
  | @inclusion k₁ k₂ _ _ _ _ _ _ _ _ htail hfile htext _ _ ih =>
    have hcount : k₁ + k₂ + 1 + k' = k₁ + (k₂ + k') + 1 := by omega
    rw [hcount]
    simp only [List.append_assoc, List.cons_append]
    exact .inclusion htail hfile htext ih
  | definition htail hkey hargument _ ih =>
    simp only [List.append_assoc, List.cons_append]
    exact .definition htail hkey hargument ih

/-- **The first inclusion** of a text is found, and putting the file in its place leaves the
expansion in place as it was. -/
theorem include_step (h : InPlace files base k text out pairs) :
    (k = 0 ∧ firstOccurrence? includeMark text = none) ∨
      ∃ k' o path content, k = k' + 1 ∧ firstOccurrence? includeMark text = some o ∧
        Provides files base o.argument path content ∧
        InPlace files base k' (o.replace content) out pairs := by
  -- along the lines: bare ones and definitions are passed, an inclusion is found
  induction h with
  | nil => exact Or.inl ⟨rfl, rfl⟩
  | line hline _ ih =>
    rw [firstOccurrence?_line (by decide) (by decide) hline.noInclude]
    rcases ih with ⟨hk, hnone⟩ | ⟨k', o, path, content, hk, hsome, hfile, hrest⟩
    · rw [hnone]
      exact Or.inl ⟨hk, rfl⟩
    · rw [hsome]
      refine Or.inr ⟨k', _, path, content, hk, rfl, hfile, ?_⟩
      rw [Occurrence.replace_after, List.append_assoc, List.singleton_append]
      exact .line hline hrest
  | @inclusion k₁ k₂ _ content _ _ _ path _ _ htail hfile htext hrest _ _ =>
    rw [firstOccurrence?_mark htail.oneLine]
    exact Or.inr ⟨k₁ + k₂, _, path, content, rfl, rfl, hfile, htext.append hrest⟩
  | definition htail hkey hargument _ ih =>
    have hline := not_includeMark_infix htail.noInclude
    rw [← List.append_assoc, firstOccurrence?_line (by decide) (by decide) hline]
    rcases ih with ⟨hk, hnone⟩ | ⟨k', o, path, content, hk, hsome, hfile, hrest⟩
    · rw [hnone]
      exact Or.inl ⟨hk, rfl⟩
    · rw [hsome]
      refine Or.inr ⟨k', _, path, content, hk, rfl, hfile, ?_⟩
      rw [Occurrence.replace_after, List.append_assoc, List.append_assoc, List.singleton_append]
      exact .definition htail hkey hargument hrest

/-- **The first definition** of a text is found, and a bare line feed in its place leaves the
expansion in place without it. It need not be the first of the expansion, since files that are still
to be included may stand before it. -/
theorem define_step (h : InPlace files base k text out pairs) :
    ((k = 0 → pairs = []) ∧ firstOccurrence? defineMark text = none) ∨
      ∃ o key value pairs', firstOccurrence? defineMark text = some o ∧
        splitDefinition o.argument = .ok (key, value) ∧ pairs.Perm ((key, value) :: pairs') ∧
        InPlace files base k (o.replace ['\n']) out pairs' := by
  -- along the lines: bare ones and inclusions are passed, a definition is found
  induction h with
  | nil => exact Or.inl ⟨fun _ => rfl, rfl⟩
  | line hline _ ih =>
    rw [firstOccurrence?_line (by decide) (by decide) hline.noDefine]
    rcases ih with ⟨hpairs, hnone⟩ | ⟨o, key, value, pairs', hsome, hsplit, hperm, hrest⟩
    · rw [hnone]
      exact Or.inl ⟨hpairs, rfl⟩
    · rw [hsome]
      refine Or.inr ⟨_, key, value, pairs', rfl, hsplit, hperm, ?_⟩
      rw [Occurrence.replace_after, List.append_assoc, List.singleton_append]
      exact .line hline hrest
  | @inclusion k₁ k₂ _ _ _ _ _ _ pairs₁ _ htail hfile htext _ _ ih =>
    have hline := not_defineMark_infix htail.noDefine
    rw [← List.append_assoc, firstOccurrence?_line (by decide) (by decide) hline]
    rcases ih with ⟨-, hnone⟩ | ⟨o, key, value, pairs', hsome, hsplit, hperm, hrest⟩
    · rw [hnone]
      exact Or.inl ⟨fun hk => absurd hk (Nat.succ_ne_zero _), rfl⟩
    · rw [hsome]
      -- the definitions of the file stay where they are, before the one that was found
      refine Or.inr ⟨_, key, value, pairs₁ ++ pairs', rfl, hsplit, ?_, ?_⟩
      · exact (hperm.append_left pairs₁).trans List.perm_middle
      · rw [Occurrence.replace_after, List.append_assoc, List.append_assoc, List.singleton_append]
        exact .inclusion htail hfile htext hrest
  | definition htail hkey hargument hrest _ =>
    rw [firstOccurrence?_mark htail.oneLine]
    refine Or.inr ⟨_, _, _, _, rfl, splitDefinition_eq hkey hargument, List.Perm.refl _, ?_⟩
    -- what is left of the line is empty
    exact .line (by decide : Bare []) hrest

/-- A text without directives is its own expansion. -/
theorem eq_of_free (h : InPlace files base k text out pairs) (hk : k = 0) (hpairs : pairs = []) :
    text = out := by
  induction h with
  | nil => rfl
  | line _ _ ih => rw [ih hk hpairs]
  | inclusion => cases hk
  | definition => cases hpairs

end InPlace

/-! ### Rounds -/

/-- What becomes of an expansion that starts from some definitions: it finishes with the text and
the definitions of the expansion in place, unless a name would be defined twice. -/
structure Expanded (seeds : Table String) (out : List Char) (pairs : List (String × String))
    (e : Expansion) : Prop where
  distinct : seeds.Admits (pairs.map Prod.fst) → e.status = .finished ∧ e.text = out ∧
    ∃ added, added.Perm pairs ∧ e.defines = seeds.extend added
  repeated : ¬ seeds.Admits (pairs.map Prod.fst) → ∃ key old new,
    e.status = .failed (.duplicateDefine key old new) ∧ (key, new) ∈ pairs ∧
      (seeds.find? key = some old ∨ (key, old) ∈ pairs)

/-- Some of the definitions can be entered beforehand. -/
theorem Expanded.of_extend {seeds : Table String} {out : List Char}
    {pairs added pairs' : List (String × String)} {e : Expansion}
    (hperm : pairs.Perm (added ++ pairs')) (hadded : seeds.Admits (added.map Prod.fst))
    (h : Expanded (seeds.extend added) out pairs' e) : Expanded seeds out pairs e := by
  have hadmits : seeds.Admits (pairs.map Prod.fst) ↔
      (seeds.extend added).Admits (pairs'.map Prod.fst) := by
    rw [Table.admits_perm (hperm.map Prod.fst), List.map_append, Table.admits_append_iff,
      and_iff_right hadded]
  constructor
  · intro hdistinct
    obtain ⟨hstatus, htext, added', hadded', hdefines⟩ := h.distinct (hadmits.mp hdistinct)
    refine ⟨hstatus, htext, added ++ added', ?_, ?_⟩
    · exact (hadded'.append_left added).trans hperm.symm
    · rw [hdefines, Table.extend_extend]
  · intro hrepeated
    obtain ⟨key, old, new, hstatus, hnew, hold⟩ := h.repeated (mt hadmits.mpr hrepeated)
    refine ⟨key, old, new, hstatus, hperm.mem_iff.mpr (List.mem_append_right added hnew), ?_⟩
    -- what was there is one of the seeds, of those entered beforehand or of the others
    rcases hold with hold | hold
    · rw [Table.find?_extend, Option.or_eq_some_iff] at hold
      rcases hold with hold | ⟨-, hold⟩
      · exact Or.inl hold
      · have hmem : (key, old) ∈ added := Table.mem_entries_of_find? hold
        exact Or.inr (hperm.mem_iff.mpr (List.mem_append_left pairs' hmem))
    · exact Or.inr (hperm.mem_iff.mpr (List.mem_append_right added hold))

namespace Expansion

variable {k : Nat} {out : List Char} {pairs : List (String × String)} {e : Expansion}

theorem replaceInclude_inPlace (h : InPlace files base k e.text out pairs) :
    (k = 0 ∧ e.replaceInclude files base = (e, false)) ∨
      ∃ k' text log, k = k' + 1 ∧ InPlace files base k' text out pairs ∧
        e.replaceInclude files base = ({ e with text, log }, true) := by
  rcases h.include_step with ⟨hk, hnone⟩ | ⟨k', o, path, content, hk, hsome, hfile, hrest⟩
  · rw [replaceInclude, hnone]
    exact Or.inl ⟨hk, rfl⟩
  · rw [replaceInclude, hsome]
    dsimp only
    rw [hfile e.log]
    exact Or.inr ⟨k', _, _, hk, hrest, rfl⟩

theorem replaceDefine_inPlace (h : InPlace files base k e.text out pairs) :
    ((k = 0 → pairs = []) ∧ e.replaceDefine = (e, false)) ∨
    (∃ key old new, (key, new) ∈ pairs ∧ e.defines.find? key = some old ∧
      e.replaceDefine = ({ e with status := .failed (.duplicateDefine key old new) }, true)) ∨
    ∃ key value pairs' text, pairs.Perm ((key, value) :: pairs') ∧ e.defines.find? key = none ∧
      InPlace files base k text out pairs' ∧
      e.replaceDefine = ({ e with text, defines := e.defines.extend [(key, value)] }, true) := by
  rcases h.define_step with ⟨hpairs, hnone⟩ |
    ⟨o, key, value, pairs', hsome, hsplit, hperm, hrest⟩
  · rw [replaceDefine, hnone]
    exact Or.inl ⟨hpairs, rfl⟩
  · rw [replaceDefine, hsome]
    dsimp only
    rw [addDefinition, hsplit]
    dsimp only
    cases hfind : e.defines.find? key with
    | some old =>
      have hmem : (key, value) ∈ pairs := hperm.mem_iff.mpr List.mem_cons_self
      exact Or.inr (Or.inl ⟨key, old, value, hmem, hfind, rfl⟩)
    | none =>
      rw [Table.insert_eq_extend hfind]
      exact Or.inr (Or.inr ⟨key, value, pairs', _, hperm, hfind, hrest, rfl⟩)

/-- The expansion goes on, and its text has an expansion in place. -/
structure Pending (files : Files.Live) (base : Option Files.Path) (k : Nat) (out : List Char)
    (pairs : List (String × String)) (e : Expansion) : Prop where
  status : e.status = .expanding
  text : InPlace files base k e.text out pairs

/-- A definition of the expansion in place has a name that is present. -/
def Clashes (e : Expansion) (pairs : List (String × String)) (e' : Expansion) : Prop :=
  ∃ key old new, (key, new) ∈ pairs ∧ e.defines.find? key = some old ∧
    e'.status = .failed (.duplicateDefine key old new)

/-- Some definitions were entered, and fewer inclusions and definitions are still to come. -/
def Progresses (files : Files.Live) (base : Option Files.Path) (k : Nat) (out : List Char)
    (pairs : List (String × String)) (e e' : Expansion) : Prop :=
  ∃ k' added pairs', Pending files base k' out pairs' e' ∧
    k' + pairs'.length < k + pairs.length ∧ pairs.Perm (added ++ pairs') ∧
    e.defines.Admits (added.map Prod.fst) ∧ e'.defines = e.defines.extend added

/-- The second part of a round, after an inclusion or none. -/
theorem advance_of_include {e' : Expansion} {k' : Nat} {included : Bool} (h : e.status = .expanding)
    (hinclude : e.replaceInclude files base = (e', included))
    (h' : Pending files base k' out pairs e') (hdefines : e'.defines = e.defines) (hk : k' ≤ k) :
    ((k' = 0 → pairs = []) ∧
      e.advance files base = if included then e' else { e' with status := .finished }) ∨
    Clashes e pairs (e.advance files base) ∨
    Progresses files base k out pairs e (e.advance files base) := by
  rw [advance_eq h hinclude h'.status]
  rcases replaceDefine_inPlace h'.text with ⟨hpairs, hdefine⟩ |
    ⟨key, old, new, hnew, hold, hdefine⟩ | ⟨key, value, pairs', text, hperm, hfind, htext, hdefine⟩
  · rw [hdefine]
    exact Or.inl ⟨hpairs, rfl⟩
  · rw [hdefine]
    rw [hdefines] at hold
    exact Or.inr (Or.inl ⟨key, old, new, hnew, hold, rfl⟩)
  · rw [hdefine]
    rw [hdefines] at hfind
    have hlength : pairs.length = pairs'.length + 1 := by
      rw [hperm.length_eq, List.length_cons]
    refine Or.inr (Or.inr ⟨k', [(key, value)], pairs', ⟨h'.status, htext⟩, by omega, hperm, ?_, ?_⟩)
    · exact (Table.admits_cons_iff value).mpr ⟨hfind, Table.admits_nil _⟩
    · dsimp only
      rw [hdefines]

/-- **One round** finishes, meets a name that is present, or makes progress. -/
theorem advance_inPlace (h : Pending files base k out pairs e) :
    (k = 0 ∧ pairs = [] ∧ e.advance files base = { e with status := .finished }) ∨
    Clashes e pairs (e.advance files base) ∨
    Progresses files base k out pairs e (e.advance files base) := by
  rcases replaceInclude_inPlace h.text with ⟨hk, hinclude⟩ |
    ⟨k', text, log, hk, htext, hinclude⟩
  · rcases advance_of_include h.status hinclude h rfl (Nat.le_refl k) with
      ⟨hpairs, hadvance⟩ | hdefine
    · exact Or.inl ⟨hk, hpairs hk, hadvance⟩
    · exact Or.inr hdefine
  · have hpending : Pending files base k' out pairs { e with text, log } := ⟨h.status, htext⟩
    rcases advance_of_include h.status hinclude hpending rfl (by omega : k' ≤ k) with
      ⟨-, hadvance⟩ | hdefine
    · -- the inclusion alone is the progress
      refine Or.inr (Or.inr ⟨k', [], pairs, ?_, by omega, List.Perm.refl _, ?_, ?_⟩)
      · rw [hadvance]
        exact hpending
      · exact Table.admits_nil _
      · rw [hadvance, Table.extend_nil]
        rfl
    · exact Or.inr hdefine

/-- **All rounds**: as many as there are inclusions and definitions, and one that finds neither. -/
theorem expanded_after (h : Pending files base k out pairs e) {rounds : Nat}
    (hrounds : k + pairs.length < rounds) :
    Expanded e.defines out pairs (e.after files base rounds) := by
  -- on the rounds: one that goes on leaves fewer inclusions and definitions, so there are enough
  induction rounds generalizing k pairs e with
  | zero => exact absurd hrounds (Nat.not_lt_zero _)
  | succ rounds ih =>
    rw [after_succ h.status]
    rcases advance_inPlace h with ⟨hk, rfl, hadvance⟩ | ⟨key, old, new, hnew, hold, hstatus⟩ |
      ⟨k', added, pairs', hpending, hless, hperm, hadmits, hdefines⟩
    · rw [hadvance, after_of_stopped ExpansionStatus.noConfusion]
      have htext : e.text = out := h.text.eq_of_free hk rfl
      refine ⟨fun _ => ⟨rfl, htext, [], List.Perm.refl _, ?_⟩, fun hnot => ?_⟩
      · exact (Table.extend_nil _).symm
      · exact absurd (Table.admits_nil _) hnot
    · -- a name that is present is not admitted
      rw [after_of_stopped (by rw [hstatus]; exact ExpansionStatus.noConfusion)]
      refine ⟨fun hdistinct => ?_, fun _ => ⟨key, old, new, hstatus, hnew, Or.inl hold⟩⟩
      have hnone := hdistinct.2 key (List.mem_map_of_mem hnew)
      rw [hold] at hnone
      cases hnone
    · have hrest := ih hpending (by omega)
      rw [hdefines] at hrest
      exact .of_extend hperm hadmits hrest

end Expansion

/-! ### Orderly texts -/

/-- The arguments of the lines that begin with a mark. -/
def arguments (mark text : List Char) : List String :=
  (Text.splitWhere (· == '\n') text).filterMap fun line =>
    (Text.after? mark line).map fun tail => String.ofList (Text.trimChars tail)

/-- The text is empty or ends in a line feed, and a mark is found at the start of a line or not at
all. -/
structure Tidy (text : List Char) : Prop where
  ended : text = [] ∨ text.getLast? = some '\n'
  leading : ∀ line ∈ Text.splitWhere (· == '\n') text,
    ¬ includeMark <:+: line.tail ∧ ¬ defineMark <:+: line.tail

/-- The texts that come together in an expansion: the source, and the files that are included, each
with the path it was read from. -/
inductive Involved (files : Files.Live) (base : Option Files.Path) (source : List Char) :
    Option Files.Path → List Char → Prop
  | source : Involved files base source none source
  | included {origin : Option Files.Path} {text content : List Char} {name : String}
      {path : Files.Path} (h : Involved files base source origin text)
      (hname : name ∈ arguments includeMark text) (hfile : Provides files base name path content) :
      Involved files base source (some path) content

/-- A source that can be expanded in place. -/
structure Orderly (files : Files.Live) (base : Option Files.Path) (source : List Char) : Prop where
  tidy : ∀ origin text, Involved files base source origin text → Tidy text
  /-- Every name to include is that of a file. -/
  provided : ∀ origin text, Involved files base source origin text →
    ∀ name ∈ arguments includeMark text, ∃ path content, Provides files base name path content
  /-- Every definition has a key and a value. -/
  valued : ∀ origin text, Involved files base source origin text →
    ∀ argument ∈ arguments defineMark text, ' ' ∈ argument.toList
  /-- Files do not include themselves, be it through others. -/
  ranked : ∃ rank : Files.Path → Nat, ∀ path text, Involved files base source (some path) text →
    ∀ name ∈ arguments includeMark text, ∀ path' content,
      Provides files base name path' content → rank path' < rank path

instance (text : List Char) : Decidable (Tidy text) :=
  decidable_of_iff
    ((text = [] ∨ text.getLast? = some '\n') ∧ ∀ line ∈ Text.splitWhere (· == '\n') text,
      Text.cutAt? includeMark line.tail = none ∧ Text.cutAt? defineMark line.tail = none)
    (by
      simp only [Text.cutAt?_eq_none_iff]
      exact ⟨fun h => ⟨h.1, h.2⟩, fun h => ⟨h.ended, h.leading⟩⟩)

theorem provides_of_toOption {still : Files} {name : String} {path : Files.Path} {text : List Char}
    (h : (includeText still base name).toOption = some (text, path)) :
    Provides (Files.still still) base name path text := by
  intro log
  rw [Files.still]
  cases hread : includeText still base name with
  | error fault =>
    rw [hread] at h
    cases h
  | ok read =>
    rw [hread] at h
    exact congrArg Except.ok (Option.some.inj h)

theorem Provides.unique {name : String} {path path' : Files.Path} {text text' : List Char}
    (h : Provides files base name path text) (h' : Provides files base name path' text') :
    (path, text) = (path', text') := by
  have heq := (h #[]).symm.trans (h' #[])
  obtain ⟨rfl, rfl⟩ := Prod.mk.inj (Except.ok.inj heq)
  rfl

section Listed

variable {still : Files} {source : List Char} {listed : List (Files.Path × List Char)}
  {rank : Files.Path → Nat}

/-- The texts of an expansion are those of a list that has every file it includes. -/
theorem Involved.mem_listed
    (hdirect : ∀ name ∈ arguments includeMark source,
      ∃ y ∈ listed, (includeText still base name).toOption = some (y.2, y.1))
    (hclosed : ∀ x ∈ listed, ∀ name ∈ arguments includeMark x.2,
      ∃ y ∈ listed, (includeText still base name).toOption = some (y.2, y.1) ∧
        rank y.1 < rank x.1)
    {origin : Option Files.Path} {text : List Char}
    (h : Involved (Files.still still) base source origin text) :
    (origin = none ∧ text = source) ∨ ∃ path, origin = some path ∧ (path, text) ∈ listed := by
  induction h with
  | source => exact Or.inl ⟨rfl, rfl⟩
  | @included _ _ content _ path _ hname hfile ih =>
    refine Or.inr ⟨path, rfl, ?_⟩
    rcases ih with ⟨-, rfl⟩ | ⟨path', -, hmem⟩
    · obtain ⟨y, hy, htext⟩ := hdirect _ hname
      rw [hfile.unique (provides_of_toOption htext)]
      exact hy
    · obtain ⟨y, hy, htext, -⟩ := hclosed _ hmem _ hname
      rw [hfile.unique (provides_of_toOption htext)]
      exact hy

/-- **Orderliness can be checked** on a list that has every file it includes. -/
theorem Orderly.of_listed (htidy : ∀ text ∈ source :: listed.map Prod.snd, Tidy text)
    (hvalued : ∀ text ∈ source :: listed.map Prod.snd, ∀ argument ∈ arguments defineMark text,
      ' ' ∈ argument.toList)
    (hdirect : ∀ name ∈ arguments includeMark source,
      ∃ y ∈ listed, (includeText still base name).toOption = some (y.2, y.1))
    (hclosed : ∀ x ∈ listed, ∀ name ∈ arguments includeMark x.2,
      ∃ y ∈ listed, (includeText still base name).toOption = some (y.2, y.1) ∧
        rank y.1 < rank x.1) :
    Orderly (Files.still still) base source := by
  have htexts : ∀ origin text, Involved (Files.still still) base source origin text →
      text ∈ source :: listed.map Prod.snd := by
    intro origin text h
    rcases h.mem_listed hdirect hclosed with ⟨-, rfl⟩ | ⟨path, -, hmem⟩
    · exact List.mem_cons_self
    · exact List.mem_cons_of_mem _ (List.mem_map_of_mem hmem)
  refine
    { tidy := fun origin text h => htidy text (htexts origin text h)
      provided := ?_
      valued := fun origin text h => hvalued text (htexts origin text h)
      ranked := ⟨rank, ?_⟩ }
  · intro origin text h name hname
    rcases h.mem_listed hdirect hclosed with ⟨-, rfl⟩ | ⟨path, -, hmem⟩
    · obtain ⟨y, -, htext⟩ := hdirect _ hname
      exact ⟨y.1, y.2, provides_of_toOption htext⟩
    · obtain ⟨y, -, htext, -⟩ := hclosed _ hmem _ hname
      exact ⟨y.1, y.2, provides_of_toOption htext⟩
  · intro path text h name hname path' content hfile
    rcases h.mem_listed hdirect hclosed with ⟨hnone, -⟩ | ⟨_, hsome, hmem⟩
    · cases hnone
    · obtain rfl := Option.some.inj hsome
      obtain ⟨y, -, htext, hless⟩ := hclosed _ hmem _ hname
      have hread : (path', content) = y := hfile.unique (provides_of_toOption htext)
      rw [← hread] at hless
      exact hless

end Listed

theorem splitWhere_line {line : List Char} (h : '\n' ∉ line) (rest : List Char) :
    Text.splitWhere (· == '\n') (line ++ '\n' :: rest) =
      line :: Text.splitWhere (· == '\n') rest := by
  refine Text.splitWhere_append_cons ?_ rfl rest
  intro c hc
  rw [beq_eq_false_iff_ne]
  rintro rfl
  exact h hc

theorem mem_arguments_line {mark line rest : List Char} (h : '\n' ∉ line) {argument : String} :
    argument ∈ arguments mark (line ++ '\n' :: rest) ↔
      (∃ tail, line = mark ++ tail ∧ String.ofList (Text.trimChars tail) = argument) ∨
        argument ∈ arguments mark rest := by
  rw [arguments, splitWhere_line h, arguments, List.mem_filterMap, List.mem_filterMap]
  simp only [List.mem_cons, or_and_right, exists_or, exists_eq_left, Option.map_eq_some_iff,
    Text.after?_eq_some_iff]

/-- The first line of a tidy text, and what follows it. -/
theorem Tidy.exists_line {text : List Char} (h : Tidy text) (hne : text ≠ []) :
    ∃ line rest, text = line ++ '\n' :: rest ∧ '\n' ∉ line ∧ Tidy rest ∧
      ¬ includeMark <:+: line.tail ∧ ¬ defineMark <:+: line.tail := by
  have hlast : text.getLast? = some '\n' := h.ended.resolve_left hne
  obtain ⟨line, rest, rfl, hline⟩ := List.eq_append_cons_of_mem (List.mem_of_getLast? hlast)
  have hlines := h.leading
  rw [splitWhere_line hline, List.forall_mem_cons] at hlines
  refine ⟨line, rest, rfl, hline, ⟨?_, hlines.2⟩, hlines.1⟩
  cases rest with
  | nil => exact Or.inl rfl
  | cons c rest =>
    rw [List.getLast?_append, List.getLast?_cons_cons, List.getLast?_cons, Option.some_or,
      ← List.getLast?_cons] at hlast
    exact Or.inr hlast

theorem bare_of_mark {mark tail : List Char} (hmark : mark ≠ []) (h : '\n' ∉ mark ++ tail)
    (hinclude : ¬ includeMark <:+: (mark ++ tail).tail)
    (hdefine : ¬ defineMark <:+: (mark ++ tail).tail) : Bare tail := by
  have htail : tail <:+: (mark ++ tail).tail := by
    rw [List.tail_append_of_ne_nil hmark]
    exact (List.suffix_append _ _).isInfix
  exact ⟨fun hc => h (List.mem_append_right mark hc), fun hi => hinclude (hi.trans htail),
    fun hd => hdefine (hd.trans htail)⟩

theorem prefix_of_infix_of_tail {mark line : List Char} (hmark : mark ≠ [])
    (htail : ¬ mark <:+: line.tail) (h : mark <:+: line) : mark <+: line := by
  cases line with
  | nil => exact absurd (List.infix_nil.mp h) hmark
  | cons c line => exact (List.infix_cons_iff.mp h).resolve_right htail

/-- **The three kinds of lines**: what has a mark at its start or nowhere is bare, or a mark with a
bare argument. -/
theorem line_cases {line : List Char} (h : '\n' ∉ line) (hinclude : ¬ includeMark <:+: line.tail)
    (hdefine : ¬ defineMark <:+: line.tail) :
    Bare line ∨ (∃ tail, line = includeMark ++ tail ∧ Bare tail) ∨
      ∃ tail, line = defineMark ++ tail ∧ Bare tail := by
  by_cases hi : includeMark <+: line
  · obtain ⟨tail, rfl⟩ := hi
    exact Or.inr (Or.inl ⟨tail, rfl, bare_of_mark (by decide) h hinclude hdefine⟩)
  by_cases hd : defineMark <+: line
  · obtain ⟨tail, rfl⟩ := hd
    exact Or.inr (Or.inr ⟨tail, rfl, bare_of_mark (by decide) h hinclude hdefine⟩)
  exact Or.inl ⟨h, mt (prefix_of_infix_of_tail (by decide) hinclude) hi,
    mt (prefix_of_infix_of_tail (by decide) hdefine) hd⟩

/-- A tidy text has an expansion in place if the files that it includes have one. -/
theorem Tidy.exists_inPlace {text : List Char} (h : Tidy text)
    (hincludes : ∀ name ∈ arguments includeMark text, ∃ path content k out pairs,
      Provides files base name path content ∧ InPlace files base k content out pairs)
    (hdefines : ∀ argument ∈ arguments defineMark text, ' ' ∈ argument.toList) :
    ∃ k out pairs, InPlace files base k text out pairs := by
  -- on the number of characters, line by line
  induction hlength : text.length using Nat.strongRecOn generalizing text with
  | ind n ih =>
    by_cases hne : text = []
    · subst hne
      exact ⟨0, [], [], .nil⟩
    -- the rest is expanded first, and then the line in front of it
    obtain ⟨line, rest, rfl, hline, hrest, hinclude, hdefine⟩ := h.exists_line hne
    have hless : rest.length < n := by
      rw [← hlength, List.length_append, List.length_cons]
      omega
    have hlater : ∀ {mark : List Char}, ∀ argument ∈ arguments mark rest,
        argument ∈ arguments mark (line ++ '\n' :: rest) :=
      fun argument h => (mem_arguments_line hline).mpr (Or.inr h)
    obtain ⟨k, out, pairs, hexpand⟩ := ih rest.length hless hrest
      (fun name hname => hincludes name (hlater name hname))
      (fun argument hargument => hdefines argument (hlater argument hargument)) rfl
    rcases line_cases hline hinclude hdefine with hbare | ⟨tail, rfl, htail⟩ | ⟨tail, rfl, htail⟩
    · exact ⟨k, _, pairs, .line hbare hexpand⟩
    · obtain ⟨path, content, k', out', pairs', hfile, hcontent⟩ :=
        hincludes _ ((mem_arguments_line hline).mpr (Or.inl ⟨tail, rfl, rfl⟩))
      rw [List.append_assoc]
      exact ⟨_, _, _, .inclusion htail hfile hcontent hexpand⟩
    · have hspace := hdefines _ ((mem_arguments_line hline).mpr (Or.inl ⟨tail, rfl, rfl⟩))
      rw [String.toList_ofList] at hspace
      obtain ⟨key, value, hargument, hkey⟩ := List.eq_append_cons_of_mem hspace
      rw [List.append_assoc]
      exact ⟨_, _, _, .definition htail hkey hargument hexpand⟩

/-- Every file that is included has an expansion in place, by induction on its rank. -/
theorem Orderly.exists_inPlace_of_included {source : List Char} (h : Orderly files base source)
    {path : Files.Path} {text : List Char} (hfile : Involved files base source (some path) text) :
    ∃ k out pairs, InPlace files base k text out pairs := by
  obtain ⟨rank, hrank⟩ := h.ranked
  -- a file that is included has a lower rank than the one that includes it
  induction hn : rank path using Nat.strongRecOn generalizing path text with
  | ind n ih =>
    refine (h.tidy _ _ hfile).exists_inPlace ?_ (h.valued _ _ hfile)
    intro name hname
    obtain ⟨path', content, hprovides⟩ := h.provided _ _ hfile name hname
    have hless : rank path' < n := hn ▸ hrank path text hfile name hname path' content hprovides
    obtain ⟨k, out, pairs, hexpand⟩ := ih _ hless (.included hfile hname hprovides) rfl
    exact ⟨path', content, k, out, pairs, hprovides, hexpand⟩

theorem Orderly.exists_inPlace {source : List Char} (h : Orderly files base source) :
    ∃ k out pairs, InPlace files base k source out pairs := by
  refine (h.tidy _ _ .source).exists_inPlace ?_ (h.valued _ _ .source)
  intro name hname
  obtain ⟨path, content, hprovides⟩ := h.provided _ _ .source name hname
  obtain ⟨k, out, pairs, hexpand⟩ :=
    h.exists_inPlace_of_included (.included .source hname hprovides)
  exact ⟨path, content, k, out, pairs, hprovides, hexpand⟩

/-- **Rounds expand in place.** An orderly source has an expansion in place. After as many rounds as
it has inclusions and definitions, and one more, the expansion has stopped: with that text and those
definitions if their names differ from each other and from the names it started with, and with a
name that is defined twice if not. -/
theorem rounds_expand_in_place {source : String} (h : Orderly files base source.toList)
    (seeds : Table String) (log : Array Log.Record) :
    (∃ k out pairs, InPlace files base k source.toList out pairs) ∧
    ∀ k out pairs, InPlace files base k source.toList out pairs →
      ∀ rounds, k + pairs.length < rounds →
        Expanded seeds out pairs ((Expansion.start source seeds log).after files base rounds) := by
  refine ⟨h.exists_inPlace, ?_⟩
  intro k out pairs hexpand rounds hrounds
  have hpending : (Expansion.start source seeds log).Pending files base k out pairs :=
    ⟨rfl, hexpand⟩
  exact Expansion.expanded_after hpending hrounds

/-- A file that includes another one before its own definition. -/
def outerText : String := "%include inner\n%define a 1\nnop\n"

def innerText : String := "%define c  x y \nret\n"

def nestedFiles : Files := fun path =>
  if path = .ofText "outer" then .ok outerText.toUTF8.toList
  else if path = .ofText "inner" then .ok innerText.toUTF8.toList
  else .error .notFound

def nestedSource : String := "%include outer\nmov eax, c\n%define b 2\n"

theorem orderly_nestedSource : Orderly (Files.still nestedFiles) none nestedSource.toList :=
  @Orderly.of_listed none nestedFiles nestedSource.toList
    [(.ofText "outer", outerText.toList), (.ofText "inner", innerText.toList)]
    (fun path => if path = .ofText "outer" then 1 else 0)
    (by decide +kernel) (by decide +kernel) (by decide +kernel) (by decide +kernel)

/-- In place, the definition of the inner file comes before that of the outer one. -/
theorem inPlace_nestedSource :
    InPlace (Files.still nestedFiles) none 2 nestedSource.toList
      "\nret\n\nnop\nmov eax, c\n\n".toList [("c", "x y"), ("a", "1"), ("b", "2")] := by
  have hinner : InPlace (Files.still nestedFiles) none 0 innerText.toList "\nret\n".toList
      [("c", "x y")] :=
    @InPlace.definition _ _ 0 " c  x y ".toList "c".toList " x y".toList "ret\n".toList
      "ret\n".toList [] (by decide) (by decide) (by decide)
      (@InPlace.line _ _ 0 "ret".toList [] [] [] (by decide) .nil)
  have houter : InPlace (Files.still nestedFiles) none 1 outerText.toList "\nret\n\nnop\n".toList
      [("c", "x y"), ("a", "1")] :=
    @InPlace.inclusion _ _ 0 0 " inner".toList innerText.toList "%define a 1\nnop\n".toList
      "\nret\n".toList "\nnop\n".toList (.ofText "inner") [("c", "x y")] [("a", "1")] (by decide)
      (provides_of_toOption (by decide +kernel)) hinner
      (@InPlace.definition _ _ 0 " a 1".toList "a".toList "1".toList "nop\n".toList
        "nop\n".toList [] (by decide) (by decide) (by decide)
        (@InPlace.line _ _ 0 "nop".toList [] [] [] (by decide) .nil))
  exact
    @InPlace.inclusion _ _ 1 0 " outer".toList outerText.toList
      "mov eax, c\n%define b 2\n".toList "\nret\n\nnop\n".toList "mov eax, c\n\n".toList
      (.ofText "outer") [("c", "x y"), ("a", "1")] [("b", "2")] (by decide)
      (provides_of_toOption (by decide +kernel)) houter
      (@InPlace.line _ _ 0 "mov eax, c".toList "%define b 2\n".toList "\n".toList [("b", "2")]
        (by decide)
        (@InPlace.definition _ _ 0 " b 2".toList "b".toList "2".toList [] [] [] (by decide)
          (by decide) (by decide) .nil))

/-- The rounds enter the definition of the outer file first. They fail if they start with a name
that is defined. -/
theorem nestedSource_expanded :
    Orderly (Files.still nestedFiles) none nestedSource.toList ∧
    InPlace (Files.still nestedFiles) none 2 nestedSource.toList
      "\nret\n\nnop\nmov eax, c\n\n".toList [("c", "x y"), ("a", "1"), ("b", "2")] ∧
    (∀ seeds rounds, 5 < rounds →
      Expanded seeds "\nret\n\nnop\nmov eax, c\n\n".toList [("c", "x y"), ("a", "1"), ("b", "2")]
        ((Expansion.start nestedSource seeds #[]).after (Files.still nestedFiles) none rounds)) ∧
    ((Expansion.start nestedSource .empty #[]).after (Files.still nestedFiles) none 6).defines =
      ⟨[("a", "1"), ("c", "x y"), ("b", "2")]⟩ ∧
    ((Expansion.start nestedSource ⟨[("b", "0")]⟩ #[]).after
        (Files.still nestedFiles) none 6).status = .failed (.duplicateDefine "b" "0" "2") := by
  refine ⟨orderly_nestedSource, inPlace_nestedSource, ?_, by decide +kernel, by decide +kernel⟩
  intro seeds rounds hrounds
  exact (rounds_expand_in_place orderly_nestedSource seeds #[]).2 _ _ _ inPlace_nestedSource rounds
    hrounds

end CellMachine.Assembly
