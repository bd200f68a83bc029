import CellMachine.Files.Source
import CellMachine.Log.Sinks
import CellMachine.Proofs.Directives
import Mathlib.Data.List.Basic

/-!
# Names that cannot be asked for

A file that is not there, or not readable as text, is an answer like any other: a source reports it.
But two kinds of names get no answer. A path with a NUL character is refused before anything is
looked for, and the look-up of a relative name to include ends if the name is too long. These
failures are none of the source text, and are not reported.

* That NUL characters are refused is a property of the files (`Live.RefusesNul`). It is the same for
  a name and for the path that is read off it (`Path.nul_mem_text_ofText_iff`), so that it can be
  said by the name of a source (`readSource_eq_nulCharacter_iff`).
* `Unaskable` says by its name whether an inclusion ends in this way (`includeText_unreported_iff`).
* An expansion comes to such an end exactly if one of its rounds includes such a name:
  `advance_failedUnreported_iff` is the round, and `after_failedUnreported_iff` any number of them.
-/

namespace CellMachine

/-! ### Characters of a path -/

namespace Files

/-- The character that no path can have. -/
def nul : Char := Char.ofNat 0

namespace Path

/-- What the text of a path holds, but for slashes and dots. -/
theorem mem_text_iff {c : Char} (hslash : c ≠ '/') (hdot : c ≠ '.') (p : Path) :
    c ∈ p.text.toList ↔ c ∈ p.root.toList ∨ ∃ part ∈ p.parts, c ∈ part.toList := by
  unfold text
  split
  · next hempty =>
    rw [hempty.1, hempty.2]
    simp [hdot]
  · rw [String.toList_append, List.mem_append, String.toList_intercalate]
    refine or_congr_right ⟨fun h => ?_, fun ⟨part, hpart, hc⟩ => ?_⟩
    · rcases Text.mem_of_mem_intercalate h with hsep | ⟨_, hchars, hc⟩
      · exact absurd (List.mem_singleton.mp hsep) hslash
      · obtain ⟨part, hpart, rfl⟩ := List.mem_map.mp hchars
        exact ⟨part, hpart, hc⟩
    · exact Text.mem_intercalate_of_mem (List.mem_map_of_mem hpart) hc

theorem mem_root_ofText {c : Char} (hslash : c ≠ '/') (name : String) :
    c ∉ (ofText name).root.toList := by
  have hroot : ∀ n, c ∉ (rootOf n).toList := by
    intro n
    unfold rootOf
    split
    · simp
    · simp [hslash]
    · simp [hslash]
  exact hroot _

/-- The names of a path hold what the text of the path holds, but for slashes and dots. -/
theorem exists_mem_parts_ofText_iff {c : Char} (hslash : c ≠ '/') (hdot : c ≠ '.')
    (name : String) : (∃ part ∈ (ofText name).parts, c ∈ part.toList) ↔ c ∈ name.toList := by
  rw [← @Text.exists_mem_splitWhere_iff (· == '/') c (beq_false_of_ne hslash) name.toList]
  unfold ofText
  constructor
  · rintro ⟨part, hpart, hc⟩
    obtain ⟨piece, hpiece, rfl⟩ := List.mem_map.mp (List.mem_filter.mp hpart).1
    rw [String.toList_ofList] at hc
    exact ⟨piece, hpiece, hc⟩
  · rintro ⟨piece, hpiece, hc⟩
    have hmem : c ∈ (String.ofList piece).toList := by rwa [String.toList_ofList]
    refine ⟨String.ofList piece, List.mem_filter.mpr ⟨List.mem_map_of_mem hpiece, ?_⟩, hmem⟩
    -- what has the character is neither empty nor a dot
    rw [Bool.and_eq_true, bne_iff_ne, bne_iff_ne]
    constructor
    · intro heq
      rw [heq] at hmem
      simp at hmem
    · intro heq
      rw [heq] at hmem
      simp [hdot] at hmem

/-- **NUL characters** are not lost when a name is read as a path. -/
theorem nul_mem_text_ofText_iff (name : String) :
    nul ∈ (ofText name).text.toList ↔ nul ∈ name.toList := by
  have hslash : nul ≠ '/' := by decide
  have hdot : nul ≠ '.' := by decide
  rw [mem_text_iff hslash hdot, exists_mem_parts_ofText_iff hslash hdot]
  exact or_iff_right (mem_root_ofText hslash name)

/-- Nor are they when the path is taken below a directory. -/
theorem nul_mem_text_under {name : String} (h : nul ∈ name.toList) (base : Path) :
    nul ∈ (base.under (ofText name)).text.toList := by
  have hslash : nul ≠ '/' := by decide
  have hdot : nul ≠ '.' := by decide
  obtain ⟨part, hpart, hc⟩ := (exists_mem_parts_ofText_iff hslash hdot name).mpr h
  rw [mem_text_iff hslash hdot]
  refine Or.inr ⟨part, ?_, hc⟩
  unfold under
  split
  · exact hpart
  · exact List.mem_append_right _ hpart

end Path

/-! ### Paths that cannot be asked for -/

/-- **Paths with a NUL character cannot be asked for**, and no other path is refused in this way. -/
def Live.RefusesNul (files : Live) : Prop :=
  ∀ log path, files log path = .error .nulCharacter ↔ nul ∈ path.text.toList

/-- Following names meets no NUL character; the path was looked at before. -/
theorem Tree.walk_ne_nulCharacter (t : Tree) (place : Place) (names : List String) :
    t.walk place names ≠ .error .nulCharacter := by
  induction names generalizing place with
  | nil => exact nofun
  | cons name names ih =>
    rw [Tree.walk]
    split
    · exact ih _
    · split
      · exact nofun
      · split
        · exact nofun
        · exact ih _
        · split
          · exact nofun
          · exact nofun

theorem Tree.find_eq_nulCharacter_iff (t : Tree) (path : Path) :
    t.find path = .error .nulCharacter ↔ nul ∈ path.text.toList := by
  unfold Tree.find Tree.refusal?
  by_cases hnul : nul ∈ path.text.toList
  · simp only [List.contains_iff_mem.mpr (show Char.ofNat 0 ∈ _ from hnul), if_true, hnul]
  · have hcontains : path.text.toList.contains (Char.ofNat 0) = false := by
      rw [Bool.eq_false_iff]
      exact fun h => hnul (List.contains_iff_mem.mp h)
    simp only [hcontains, Bool.false_eq_true, if_false, hnul, iff_false]
    split
    · next fault hfault =>
      split at hfault
      · obtain rfl := Option.some.inj hfault
        exact nofun
      · cases hfault
    · exact t.walk_ne_nulCharacter _ _

end Files

/-- The files of a tree refuse NUL characters, whatever is written to its log file. -/
theorem Log.Sinks.files_refusesNul (s : Log.Sinks) : s.files.RefusesNul := by
  intro log path
  rw [← s.tree.find_eq_nulCharacter_iff path]
  unfold Log.Sinks.files
  cases hfind : s.tree.find path with
  | error fault => simp
  | ok node =>
    cases node with
    | directory place => simp
    | file place bytes => simp

namespace Files

variable {files : Live} {filename : String}

/-- A file is refused for a NUL character exactly if its name has one, whatever the file holds. -/
theorem readAt_isNulCharacter_iff (hnul : files.RefusesNul) (log : Array Log.Record)
    (name : String) :
    (∃ fault, (files log).readAt (.ofText name) = .error fault ∧ fault.isNulCharacter = true) ↔
      nul ∈ name.toList := by
  rw [← Path.nul_mem_text_ofText_iff, ← hnul log]
  unfold readAt readText
  cases hopen : files log (.ofText name) with
  | error fault =>
    cases fault <;> simp [Except.map, ReadFault.isNulCharacter]
  | ok bytes =>
    dsimp only
    cases Text.decode bytes with
    | error fault => simp [Except.map, ReadFault.isNulCharacter]
    | ok chars => simp [Except.map]

theorem lookUp_isNulCharacter_iff (hnul : files.RefusesNul) (log : Array Log.Record) :
    (∃ fault, (files log).lookUp filename sourceExtension = .error fault ∧
        fault.isNulCharacter = true) ↔
      nul ∈ filename.toList := by
  unfold lookUp
  split
  · -- the extension adds no such character
    rw [readAt_isNulCharacter_iff hnul, String.toList_append, List.mem_append]
    exact or_iff_left (by decide)
  · exact readAt_isNulCharacter_iff hnul log filename

/-- The refusal comes at the first attempt, and no attempt is made after it. -/
theorem attemptFrom_eq_nulCharacter_iff (hnul : files.RefusesNul) {attempts : Int}
    {last : Option ReadFault} {attempt : Nat} {log : Array Log.Record} (remaining : Nat) :
    (attemptFrom files filename sourceExtension attempts last attempt log remaining).1 =
        .error .nulCharacter ↔
      0 < remaining ∧ nul ∈ filename.toList := by
  -- every attempt looks the same name up, in files that may have changed with the log
  induction remaining generalizing last attempt log with
  | zero => simp [attemptFrom]
  | succ remaining ih =>
    have hlook := @lookUp_isNulCharacter_iff files filename hnul log
    rw [attemptFrom, ← hlook]
    cases hanswer : (files log).lookUp filename sourceExtension with
    | ok source => simp
    | error fault =>
      dsimp only
      by_cases hfault : fault.isNulCharacter = true
      · simp [hfault]
      · rw [if_neg hfault, ih, ← hlook, hanswer]
        simp [hfault]

/-- **A source is refused** for a NUL character exactly if its name has one. -/
theorem readSource_eq_nulCharacter_iff (hnul : files.RefusesNul) (log : Array Log.Record) :
    (readSource files filename sourceExtension openAttempts log).1 = .error .nulCharacter ↔
      nul ∈ filename.toList := by
  rw [readSource, attemptFrom_eq_nulCharacter_iff hnul]
  exact and_iff_right (by decide)

end Files

namespace Assembly

variable {files : Files.Live} {base : Option Files.Path}

/-! ### Names to include -/

/-- **A name that cannot be included** and is not even asked for: it has a NUL character, or it is
relative and too long where it is looked for first. -/
def Unaskable (files : Files) (base : Option Files.Path) (name : String) : Prop :=
  Files.nul ∈ name.toList ∨
    (Files.Path.ofText name).isAbsolute = false ∧
      ∃ b ∈ base, files (b.under (.ofText name)) = .error .nameTooLong

instance (files : Files) (base : Option Files.Path) (name : String) :
    Decidable (Unaskable files base name) :=
  inferInstanceAs (Decidable (_ ∨ _ ∧ ∃ b ∈ base, _))

theorem readText_eq_nulCharacter_iff {files : Files} {path path' : Files.Path} :
    files.readText path = .error (.unopened path' .nulCharacter) ↔
      path' = path ∧ files path = .error .nulCharacter := by
  unfold Files.readText
  cases files path with
  | error fault => simp [eq_comm]
  | ok bytes =>
    dsimp only
    cases Text.decode bytes with
    | error fault => simp
    | ok chars => simp

theorem isPresent_eq_error_iff {files : Files} {path : Files.Path} {fault : Files.OpenFault} :
    files.isPresent path = .error fault ↔
      files path = .error .nameTooLong ∧ fault = .nameTooLong := by
  unfold Files.isPresent
  cases files path with
  | ok bytes => simp
  | error cause => cases cause <;> simp [eq_comm]

/-- The look-up of a name ends at once if the name is too long where it is looked for first. -/
theorem resolveInclude_eq_error_iff {files : Files} {name : String} {fault : DirectiveFault} :
    resolveInclude files base name = .error fault ↔
      (Files.Path.ofText name).isAbsolute = false ∧
        ∃ b ∈ base, files (b.under (.ofText name)) = .error .nameTooLong ∧
          fault = .unusableName (b.under (.ofText name)) .nameTooLong := by
  unfold resolveInclude
  cases base with
  | none => simp
  | some b =>
    dsimp only
    by_cases habsolute : (Files.Path.ofText name).isAbsolute = true
    · simp [habsolute]
    · rw [if_neg habsolute]
      cases hpresent : files.isPresent (b.under (.ofText name)) with
      | error cause =>
        obtain ⟨hlong, rfl⟩ := isPresent_eq_error_iff.mp hpresent
        simp [habsolute, hlong, eq_comm]
      | ok present =>
        have hshort : files (b.under (.ofText name)) ≠ .error .nameTooLong := by
          intro hlong
          rw [isPresent_eq_error_iff.mpr ⟨hlong, rfl⟩] at hpresent
          cases hpresent
        cases present <;> simp [hshort]

/-- The path that a name to include is looked for at has a NUL character exactly if the name has. -/
theorem nul_mem_of_resolveInclude (hnul : files.RefusesNul) {log : Array Log.Record} {name : String}
    {path : Files.Path} (h : resolveInclude (files log) base name = .ok path) :
    files log path = .error .nulCharacter ↔ Files.nul ∈ name.toList := by
  have hplain : files log (.ofText name) = .error .nulCharacter ↔ Files.nul ∈ name.toList :=
    (hnul log _).trans (Files.Path.nul_mem_text_ofText_iff name)
  unfold resolveInclude at h
  cases base with
  | none =>
    obtain rfl := Except.ok.inj h
    exact hplain
  | some b =>
    dsimp only at h
    split at h
    · obtain rfl := Except.ok.inj h
      exact hplain
    · split at h
      · cases h
      · next hpresent =>
        obtain rfl := Except.ok.inj h
        constructor
        · -- what is there was opened
          intro hopen
          simp [Files.isPresent, hopen] at hpresent
        · intro hmem
          exact (hnul log _).mpr (Files.Path.nul_mem_text_under hmem b)
      · obtain rfl := Except.ok.inj h
        exact hplain

/-- An inclusion ends without a report exactly if its name cannot be asked for. -/
theorem includeText_unreported_iff (hnul : files.RefusesNul) (log : Array Log.Record)
    (name : String) :
    (∃ fault, includeText (files log) base name = .error fault ∧ fault.isReported = false) ↔
      Unaskable (files log) base name := by
  unfold includeText
  cases hresolve : resolveInclude (files log) base name with
  | error fault =>
    obtain ⟨hrelative, b, hb, hlong, rfl⟩ := resolveInclude_eq_error_iff.mp hresolve
    exact iff_of_true ⟨_, rfl, rfl⟩ (Or.inr ⟨hrelative, b, hb, hlong⟩)
  | ok path =>
    have hunaskable : Unaskable (files log) base name ↔
        (files log).readText path = .error (.unopened path .nulCharacter) := by
      rw [readText_eq_nulCharacter_iff, and_iff_right rfl,
        nul_mem_of_resolveInclude hnul hresolve, Unaskable]
      refine or_iff_left ?_
      rintro ⟨hrelative, b, hb, hlong⟩
      rw [resolveInclude_eq_error_iff.mpr ⟨hrelative, b, hb, hlong, rfl⟩] at hresolve
      cases hresolve
    rw [hunaskable]
    dsimp only
    split
    · next hread => simp [hread]
    · next hread =>
      obtain ⟨rfl, -⟩ := readText_eq_nulCharacter_iff.mp hread
      exact iff_of_true ⟨_, rfl, rfl⟩ hread
    · next cause hother hread =>
      rw [hread]
      constructor
      · rintro ⟨fault, hfault, hreported⟩
        obtain rfl := Except.error.inj hfault
        cases hreported
      · intro hrefused
        exact absurd (Except.error.inj hrefused) (hother path)

/-! ### Rounds that end without a report -/

namespace Expansion

variable {e : Expansion}

/-- The name that the next round of an expansion includes. -/
def asked? (e : Expansion) : Option String :=
  match e.status with
  | .expanding => (firstOccurrence? includeMark e.text).map Occurrence.argument
  | _ => none

/-- The next round includes a name that cannot be asked for. -/
def Balks (files : Files.Live) (base : Option Files.Path) (e : Expansion) : Prop :=
  ∃ name ∈ e.asked?, Unaskable (files e.log) base name

instance (files : Files.Live) (base : Option Files.Path) (e : Expansion) :
    Decidable (e.Balks files base) :=
  inferInstanceAs (Decidable (∃ name ∈ e.asked?, _))

/-- The expansion has failed, and the failure is none of its text. -/
def FailedUnreported (e : Expansion) : Prop :=
  ∃ fault, e.status = .failed fault ∧ fault.isReported = false

theorem asked?_of_stopped (h : e.status ≠ .expanding) : e.asked? = none := by
  unfold asked?
  split
  · next hstatus => exact absurd hstatus h
  · rfl

/-- A definition that fails is reported. -/
theorem isReported_of_addDefinition {defines : Table String} {line : String} {fault : DirectiveFault}
    (h : addDefinition defines line = .error fault) : fault.isReported = true := by
  unfold addDefinition splitDefinition at h
  split at h
  · next hsplit =>
    obtain rfl := Except.error.inj h
    split at hsplit
    · obtain rfl := Except.error.inj hsplit
      rfl
    · split at hsplit
      · obtain rfl := Except.error.inj hsplit
        rfl
      · cases hsplit
  · split at h
    · obtain rfl := Except.error.inj h
      rfl
    · cases h

theorem not_failedUnreported_replaceDefine (h : e.status = .expanding) :
    ¬ e.replaceDefine.1.FailedUnreported := by
  rintro ⟨fault, hstatus, hreported⟩
  unfold replaceDefine at hstatus
  split at hstatus
  · rw [h] at hstatus
    cases hstatus
  · split at hstatus
    · next hdefine =>
      obtain rfl := ExpansionStatus.failed.inj hstatus
      rw [isReported_of_addDefinition hdefine] at hreported
      cases hreported
    · rw [h] at hstatus
      cases hstatus

/-- A round that goes on to definitions is reported if it fails. -/
theorem advance_not_failedUnreported {e' : Expansion} {included : Bool} (h : e.status = .expanding)
    (hinclude : e.replaceInclude files base = (e', included)) (h' : e'.status = .expanding) :
    ¬ (e.advance files base).FailedUnreported := by
  have hdefine := not_failedUnreported_replaceDefine h'
  rw [advance_eq h hinclude h']
  cases hreplace : e'.replaceDefine with
  | mk e'' defined =>
    rw [hreplace] at hdefine
    cases defined with
    | true => exact hdefine
    | false =>
      cases included with
      | true => exact hdefine
      | false =>
        rintro ⟨fault, hstatus, -⟩
        cases hstatus

/-- **One round** ends without a report exactly if it includes a name that cannot be asked for. -/
theorem advance_failedUnreported_iff (hnul : files.RefusesNul) (h : e.status = .expanding) :
    (e.advance files base).FailedUnreported ↔ e.Balks files base := by
  have hasked : e.asked? = (firstOccurrence? includeMark e.text).map Occurrence.argument := by
    rw [asked?, h]
  unfold Balks
  rw [hasked]
  cases hoccurs : firstOccurrence? includeMark e.text with
  | none =>
    have hinclude : e.replaceInclude files base = (e, false) := by
      rw [replaceInclude, hoccurs]
    exact iff_of_false (advance_not_failedUnreported h hinclude h) (by simp)
  | some o =>
    have hbalks : (∃ name ∈ some o.argument, Unaskable (files e.log) base name) ↔
        ∃ fault, includeText (files e.log) base o.argument = .error fault ∧
          fault.isReported = false := by
      rw [includeText_unreported_iff hnul]
      simp
    rw [Option.map_some, hbalks]
    cases hread : includeText (files e.log) base o.argument with
    | ok content =>
      obtain ⟨text, path⟩ := content
      have hinclude : e.replaceInclude files base =
          ({ e with text := o.replace text, log := e.log.push (includeRecord path text) }, true) := by
        rw [replaceInclude, hoccurs]
        dsimp only
        rw [hread]
      exact iff_of_false (advance_not_failedUnreported h hinclude h) (by simp)
    | error fault =>
      have hadvance : e.advance files base = { e with status := .failed fault } := by
        unfold advance replaceInclude
        rw [h, hoccurs]
        dsimp only
        rw [hread]
      rw [hadvance]
      simp [FailedUnreported]

/-- **Any number of rounds** end without a report exactly if one of them includes a name that cannot
be asked for. -/
theorem after_failedUnreported_iff (hnul : files.RefusesNul) (h : e.status = .expanding) (n : Nat) :
    (e.after files base n).FailedUnreported ↔ ∃ k < n, (e.after files base k).Balks files base := by
  induction n generalizing e with
  | zero =>
    refine iff_of_false ?_ (by simp)
    rintro ⟨fault, hstatus, -⟩
    rw [after, h] at hstatus
    cases hstatus
  | succ n ih =>
    rw [after_succ h]
    -- the first round is the one that fails, or it goes on to the others
    have hfirst : (∃ k < n + 1, (e.after files base k).Balks files base) ↔
        e.Balks files base ∨
          ∃ k < n, ((e.advance files base).after files base k).Balks files base := by
      rw [Nat.exists_lt_succ_left]
      refine or_congr_right (exists_congr fun k => and_congr_right fun _ => ?_)
      rw [after_succ h]
    rw [hfirst, ← advance_failedUnreported_iff hnul h]
    by_cases hstatus : (e.advance files base).status = .expanding
    · rw [ih hstatus]
      refine (or_iff_right ?_).symm
      rintro ⟨fault, hfailed, -⟩
      rw [hstatus] at hfailed
      cases hfailed
    · simp only [after_of_stopped hstatus]
      refine (or_iff_left ?_).symm
      rintro ⟨k, -, name, hasked, -⟩
      rw [asked?_of_stopped hstatus] at hasked
      cases hasked

end Expansion

end Assembly

end CellMachine
