import CellMachine.Assembly.Directive

/-!
# Rounds of an expansion

An expansion that has stopped stays as it is (`Expansion.after_of_stopped`), so it is enough to give
some number of rounds after which it has stopped. A text without directives stops at once
(`Expansion.after_of_free`).

A directive is found by its mark. Neither mark has a line feed, so what precedes a line does not
matter to what is found in it (`firstOccurrence?_line`).

Files that nothing changes are the same whatever was logged, and then the log makes no difference to
the rounds (`Expansion.after_alike`).
-/

namespace CellMachine.Assembly

/-! ### Finding a directive -/

theorem firstOccurrence?_eq_none_iff {mark text : List Char} :
    firstOccurrence? mark text = none ↔ ¬ mark <:+: text := by
  rw [firstOccurrence?, Option.map_eq_none_iff, Text.cutAt?_eq_none_iff]

/-- An occurrence with more text before it. -/
def Occurrence.after (o : Occurrence) (front : List Char) : Occurrence :=
  { o with passed := o.passed ++ front.reverse }

theorem Occurrence.replace_after (o : Occurrence) (front replacement : List Char) :
    (o.after front).replace replacement = front ++ o.replace replacement := by
  simp [Occurrence.after, Occurrence.replace, List.reverseAux_eq]

/-- A line without the mark is passed. -/
theorem firstOccurrence?_line {mark line : List Char} (hne : mark ≠ []) (hd : '\n' ∉ mark)
    (h : ¬ mark <:+: line) (rest : List Char) :
    firstOccurrence? mark (line ++ '\n' :: rest) =
      (firstOccurrence? mark rest).map fun o => o.after (line ++ ['\n']) := by
  rw [firstOccurrence?, firstOccurrence?, Text.cutAt?_append_cons hne hd h, Option.map_map,
    Option.map_map]
  rfl

/-- A directive at the start of a text takes the rest of its line. -/
theorem firstOccurrence?_mark {tail : List Char} (h : '\n' ∉ tail) (mark rest : List Char) :
    firstOccurrence? mark (mark ++ (tail ++ '\n' :: rest)) =
      some ⟨[], String.ofList (Text.trimChars tail), rest⟩ := by
  have hall : ∀ c ∈ tail, (c != '\n') = true := fun c hc => bne_iff_ne.mpr fun heq => h (heq ▸ hc)
  have htake : (tail ++ '\n' :: rest).takeWhile (· != '\n') = tail := by
    rw [List.takeWhile_append_of_pos hall]
    simp
  have hdrop : (tail ++ '\n' :: rest).dropWhile (· != '\n') = '\n' :: rest := by
    rw [List.dropWhile_append_of_pos hall]
    simp
  rw [firstOccurrence?, Text.cutAt?_append_self, Option.map_some]
  dsimp only
  rw [htake, hdrop, List.drop_one, List.tail_cons]

/-! ### Rounds -/

namespace Expansion

variable {files : Files.Live} {base : Option Files.Path} {e : Expansion}

theorem after_of_stopped (h : e.status ≠ .expanding) (n : Nat) : e.after files base n = e := by
  cases n with
  | zero => rfl
  | succ n =>
    unfold after
    split
    · next hstatus => exact absurd hstatus h
    · rfl

theorem advance_of_stopped (h : e.status ≠ .expanding) : e.advance files base = e := by
  unfold advance
  split
  · next hstatus => exact absurd hstatus h
  · rfl

theorem after_succ (h : e.status = .expanding) (n : Nat) :
    e.after files base (n + 1) = (e.advance files base).after files base n := by
  rw [after, h]

/-- The first round can be split off whether or not the expansion goes on. -/
theorem after_succ_front (files : Files.Live) (base : Option Files.Path) (n : Nat) (e : Expansion) :
    e.after files base (n + 1) = (e.advance files base).after files base n := by
  by_cases hstatus : e.status = .expanding
  · exact after_succ hstatus n
  · rw [after_of_stopped hstatus, advance_of_stopped hstatus, after_of_stopped hstatus]

/-- Once an expansion has stopped, the number of rounds no longer matters. -/
theorem after_eq_of_stopped {j k : Nat} (h : (e.after files base j).status ≠ .expanding)
    (hjk : j ≤ k) : e.after files base k = e.after files base j := by
  induction j generalizing e k with
  | zero => exact after_of_stopped h k
  | succ j ih =>
    obtain ⟨k, rfl⟩ := Nat.exists_eq_succ_of_ne_zero (Nat.ne_zero_of_lt hjk)
    rw [after_succ_front] at h ⊢
    rw [after_succ_front]
    exact ih h (Nat.le_of_succ_le_succ hjk)

/-- A round goes on to definitions after its inclusion. -/
theorem advance_eq {e' : Expansion} {included : Bool} (h : e.status = .expanding)
    (hinclude : e.replaceInclude files base = (e', included)) (h' : e'.status = .expanding) :
    e.advance files base =
      match e'.replaceDefine with
      | (e'', true) => e''
      | (e'', false) => if included then e'' else { e'' with status := .finished } := by
  unfold advance
  rw [h, hinclude]
  dsimp only
  split
  · rfl
  · next hstatus => exact absurd h' hstatus

/-- The end of a round, by what the definition has left and whether there was one. -/
def settle (included : Bool) : Expansion × Bool → Expansion
  | (e, true) => e
  | (e, false) => if included then e else { e with status := .finished }

theorem settle_of_found {x : Expansion × Bool} (h : x.2 = true) (included : Bool) :
    settle included x = x.1 := by
  obtain ⟨e, found⟩ := x
  obtain rfl : found = true := h
  rfl

theorem advance_eq_settle (h : e.status = .expanding)
    (hgoes : (e.replaceInclude files base).1.status = .expanding) :
    e.advance files base =
      settle (e.replaceInclude files base).2 (e.replaceInclude files base).1.replaceDefine := by
  rw [advance_eq h (Prod.eta _).symm hgoes]
  rfl

/-- A round that fails to include goes no further. -/
theorem advance_of_failed (h : e.status = .expanding)
    (hfailed : (e.replaceInclude files base).1.status ≠ .expanding) :
    e.advance files base = (e.replaceInclude files base).1 := by
  unfold advance
  rw [h]
  dsimp only
  split
  · next hstatus => exact absurd hstatus hfailed
  · rfl

/-- A round on a text that includes nothing goes on to definitions. -/
theorem advance_of_includes_nothing (hstatus : e.status = .expanding)
    (hinclude : ¬ includeMark <:+: e.text) :
    e.advance files base = settle false e.replaceDefine := by
  have hreplace : e.replaceInclude files base = (e, false) := by
    rw [replaceInclude, firstOccurrence?_eq_none_iff.mpr hinclude]
  have hgoes : (e.replaceInclude files base).1.status = .expanding := by
    rw [hreplace]
    exact hstatus
  rw [advance_eq_settle hstatus hgoes, hreplace]

/-- The last round finds no directive. -/
theorem advance_of_free (hstatus : e.status = .expanding) (hinclude : ¬ includeMark <:+: e.text)
    (hdefine : ¬ defineMark <:+: e.text) :
    e.advance files base = { e with status := .finished } := by
  rw [advance_of_includes_nothing hstatus hinclude, replaceDefine,
    firstOccurrence?_eq_none_iff.mpr hdefine]
  rfl

/-- **A text without directives** is expanded in one round, and stays as it is. -/
theorem after_of_free (hstatus : e.status = .expanding) (hinclude : ¬ includeMark <:+: e.text)
    (hdefine : ¬ defineMark <:+: e.text) (n : Nat) :
    e.after files base (n + 1) = { e with status := .finished } := by
  rw [after_succ hstatus, advance_of_free hstatus hinclude hdefine]
  exact after_of_stopped ExpansionStatus.noConfusion n

/-! ### The log -/

/-- Expansions that differ at most in what was logged. -/
structure Alike (e e' : Expansion) : Prop where
  text : e.text = e'.text
  defines : e.defines = e'.defines
  status : e.status = e'.status

section Log

variable {files : Files} {e' : Expansion}

theorem start_alike (source : String) (seeds : Table String) (log log' : Array Log.Record) :
    Alike (start source seeds log) (start source seeds log') :=
  ⟨rfl, rfl, rfl⟩

theorem replaceInclude_alike (h : Alike e e') :
    Alike (e.replaceInclude (Files.still files) base).1
        (e'.replaceInclude (Files.still files) base).1 ∧
      (e.replaceInclude (Files.still files) base).2 =
        (e'.replaceInclude (Files.still files) base).2 := by
  unfold replaceInclude Files.still
  rw [← h.text]
  cases firstOccurrence? includeMark e.text with
  | none => exact ⟨h, rfl⟩
  | some o =>
    dsimp only
    cases includeText files base o.argument with
    | error fault => exact ⟨⟨rfl, h.defines, rfl⟩, rfl⟩
    | ok read => exact ⟨⟨rfl, h.defines, h.status⟩, rfl⟩

theorem replaceDefine_alike (h : Alike e e') :
    Alike e.replaceDefine.1 e'.replaceDefine.1 ∧ e.replaceDefine.2 = e'.replaceDefine.2 := by
  unfold replaceDefine
  rw [← h.text, ← h.defines]
  cases firstOccurrence? defineMark e.text with
  | none => exact ⟨h, rfl⟩
  | some o =>
    dsimp only
    cases addDefinition e.defines o.argument with
    | error fault => exact ⟨⟨rfl, rfl, rfl⟩, rfl⟩
    | ok defines => exact ⟨⟨rfl, rfl, h.status⟩, rfl⟩

theorem settle_alike {x x' : Expansion × Bool} (h : Alike x.1 x'.1 ∧ x.2 = x'.2)
    (included : Bool) : Alike (settle included x) (settle included x') := by
  obtain ⟨e, found⟩ := x
  obtain ⟨e', found'⟩ := x'
  obtain ⟨halike, rfl⟩ : Alike e e' ∧ found = found' := h
  cases found with
  | true => exact halike
  | false =>
    cases included with
    | true => exact halike
    | false => exact ⟨halike.text, halike.defines, rfl⟩

/-- **The log makes no difference to a round** if the files do not depend on it. -/
theorem advance_alike (h : Alike e e') :
    Alike (e.advance (Files.still files) base) (e'.advance (Files.still files) base) := by
  by_cases hstatus : e.status = .expanding
  · have hstatus' : e'.status = .expanding := h.status.symm.trans hstatus
    obtain ⟨hincluded, hfound⟩ := @replaceInclude_alike base e files e' h
    by_cases hgoes : (e.replaceInclude (Files.still files) base).1.status = .expanding
    · have hgoes' := hincluded.status.symm.trans hgoes
      rw [advance_eq_settle hstatus hgoes, advance_eq_settle hstatus' hgoes', ← hfound]
      exact settle_alike (replaceDefine_alike hincluded) _
    · rw [advance_of_failed hstatus hgoes, advance_of_failed hstatus' (hincluded.status ▸ hgoes)]
      exact hincluded
  · rw [advance_of_stopped hstatus, advance_of_stopped (h.status ▸ hstatus)]
    exact h

/-- **The log makes no difference to an expansion** of any number of rounds. -/
theorem after_alike (h : Alike e e') (n : Nat) :
    Alike (e.after (Files.still files) base n) (e'.after (Files.still files) base n) := by
  induction n generalizing e e' with
  | zero => exact h
  | succ n ih =>
    rw [after_succ_front, after_succ_front]
    exact ih (advance_alike h)

end Log

end Expansion

end CellMachine.Assembly
