import CellMachine.Proofs.Labels

/-!
# Which error is reported

Three things can be wrong with the lines of a program: a label is written twice, a line is
malformed, or an operand names a label that no line sets. They are found by different passes over
all lines, so the order of the lines alone does not tell which of them is reported. It is stated
here without the passes (`Reported`):

* the first label whose name was written before, whatever is wrong with the lines in front of it
  (`FirstRepeated`);
* if no label is written twice, the fault of the first line that has one. A line is at fault by
  itself, or by the leftmost of its operands that names no label (`Line.FaultyBy`).

Each pass fails exactly with its part of this (`collectFrom_eq_some_iff`,
`resolveFrom_eq_error_iff`), and parsing with the one that comes first (`parse_diagnoses`).
-/

namespace CellMachine.Assembly

/-! ### Labels that are written twice -/

/-- The labels of lines in the order in which they are written, each with the number of its line.
The first line has the given number. -/
def occurrencesFrom (line : Nat) : List Line → List (Nat × String)
  | [] => []
  | l :: ls => l.labels.map (line, ·) ++ occurrencesFrom (line + 1) ls

/-- Of some occurrences of labels, the first whose name is in a table or occurred before. -/
def Repeats (table : Table Int) (os : List (Nat × String)) (x : Nat × String) : Prop :=
  ∃ before after, os = before ++ x :: after ∧ table.Admits (before.map Prod.snd) ∧
    ¬ table.Admits (before.map Prod.snd ++ [x.2])

theorem not_repeats_nil (table : Table Int) (x : Nat × String) : ¬ Repeats table [] x := by
  rintro ⟨before, after, hsplit, -⟩
  exact List.append_ne_nil_of_right_ne_nil _ (List.cons_ne_nil _ _) hsplit.symm

/-- A name that is in the table is the first to be repeated. -/
theorem repeats_cons_of_some {table : Table Int} {x y : Nat × String} {os : List (Nat × String)}
    {i : Int} (h : table.find? y.2 = some i) : Repeats table (y :: os) x ↔ x = y := by
  have hrefused : ∀ names, ¬ table.Admits (y.2 :: names) := by
    intro names hadmits
    have hnone := hadmits.2 y.2 List.mem_cons_self
    rw [h] at hnone
    cases hnone
  constructor
  · rintro ⟨before, after, hsplit, hadmits, -⟩
    cases before with
    | nil => exact (List.cons.inj hsplit).1.symm
    | cons z before =>
      obtain ⟨rfl, -⟩ := List.cons.inj hsplit
      exact absurd hadmits (hrefused _)
  · rintro rfl
    exact ⟨[], os, rfl, Table.admits_nil table, hrefused []⟩

/-- A name that is not in the table is entered. -/
theorem repeats_cons_of_none {table : Table Int} {x y : Nat × String} {os : List (Nat × String)}
    (h : table.find? y.2 = none) (value : Int) :
    Repeats table (y :: os) x ↔ Repeats (table.extend [(y.2, value)]) os x := by
  have hentered : ∀ names, table.Admits (y.2 :: names) ↔
      (table.extend [(y.2, value)]).Admits names := by
    intro names
    rw [Table.admits_cons_iff value]
    exact and_iff_right h
  constructor
  · rintro ⟨before, after, hsplit, hadmits, hrepeated⟩
    cases before with
    | nil =>
      obtain ⟨rfl, -⟩ := List.cons.inj hsplit
      exact absurd ((hentered []).mpr (Table.admits_nil _)) hrepeated
    | cons z before =>
      obtain ⟨rfl, rfl⟩ := List.cons.inj hsplit
      exact ⟨before, after, rfl, (hentered _).mp hadmits, mt (hentered _).mpr hrepeated⟩
  · rintro ⟨before, after, rfl, hadmits, hrepeated⟩
    exact ⟨y :: before, after, rfl, (hentered _).mpr hadmits, mt (hentered _).mp hrepeated⟩

/-- Occurrences are looked through one part after the other, and the first part has been entered
when the second one is looked at. -/
theorem repeats_append_iff {table : Table Int} {os os' : List (Nat × String)} {x : Nat × String}
    {entered : List (String × Int)} (h : entered.map Prod.fst = os.map Prod.snd) :
    Repeats table (os ++ os') x ↔
      Repeats table os x ∨
        table.Admits (os.map Prod.snd) ∧ Repeats (table.extend entered) os' x := by
  induction os generalizing table entered with
  | nil =>
    obtain rfl := List.map_eq_nil_iff.mp h
    simp [not_repeats_nil, Table.admits_nil]
  | cons y os ih =>
    obtain ⟨⟨_, value⟩, entered, rfl, rfl, hrest⟩ := List.map_eq_cons_iff.mp h
    rw [List.cons_append]
    cases hfind : table.find? y.2 with
    | some i =>
      have hrefused : ¬ table.Admits ((y :: os).map Prod.snd) := by
        intro hadmits
        have hnone := hadmits.2 y.2 (List.mem_map_of_mem List.mem_cons_self)
        rw [hfind] at hnone
        cases hnone
      simp only [repeats_cons_of_some hfind, hrefused, false_and, or_false]
    | none =>
      rw [repeats_cons_of_none hfind value, repeats_cons_of_none hfind value, ih hrest,
        List.map_cons, Table.admits_cons_iff value, Table.extend_extend, List.singleton_append]
      simp only [hfind, true_and]

theorem addLabels_eq_some_iff {index : Nat} {table : Table Int} {names : List String}
    {fault : LineFault} (line : Nat) :
    (addLabels index table names).2 = some fault ↔
      ∃ name, Repeats table (names.map (line, ·)) (line, name) ∧ fault = .duplicateLabel name := by
  induction names generalizing table with
  | nil => simp [addLabels, not_repeats_nil]
  | cons name names ih =>
    rw [addLabels, Table.contains, List.map_cons]
    cases hfind : table.find? name with
    | some i =>
      simp only [Option.isSome_some, if_true, repeats_cons_of_some (y := (line, name)) hfind,
        Prod.mk.injEq, true_and, exists_eq_left, Option.some.injEq]
      exact eq_comm
    | none =>
      simp only [Option.isSome_none, Bool.false_eq_true, if_false, ih,
        Table.insert_eq_extend hfind,
        repeats_cons_of_none (y := (line, name)) hfind (index : Int)]

/-- **The first pass fails** exactly at the first label that is in the table or was written
before. -/
theorem collectFrom_eq_some_iff {line index : Nat} {table : Table Int} {ls : List Line}
    {e : ParseError} :
    (collectFrom line index table ls).2 = some e ↔
      ∃ name, Repeats table (occurrencesFrom line ls) (e.line, name) ∧
        e.fault = .duplicateLabel name := by
  induction ls generalizing line index table with
  | nil => simp [collectFrom, occurrencesFrom, not_repeats_nil]
  | cons l ls ih =>
    have hentered : (labelled index l.labels).map Prod.fst =
        (l.labels.map (line, ·)).map Prod.snd := by
      rw [map_fst_labelled, List.map_map]
      exact (List.map_id _).symm
    simp only [collectFrom, occurrencesFrom, repeats_append_iff hentered]
    rw [← hentered, map_fst_labelled]
    -- a repeated label of this line carries the number of the line
    have hown : ∀ {name : String}, Repeats table (l.labels.map (line, ·)) (e.line, name) →
        e.line = line := by
      rintro name ⟨before, after, hsplit, -⟩
      have hmem : (e.line, name) ∈ l.labels.map (line, ·) := by
        rw [hsplit]
        exact List.mem_append_right _ List.mem_cons_self
      obtain ⟨_, -, heq⟩ := List.mem_map.mp hmem
      exact (Prod.mk.inj heq).1.symm
    cases hadd : addLabels index table l.labels with
    | mk t fault? =>
      have hfault : ∀ fault, fault? = some fault ↔
          ∃ name, Repeats table (l.labels.map (line, ·)) (line, name) ∧
            fault = .duplicateLabel name := by
        intro fault
        rw [← @addLabels_eq_some_iff index, hadd]
      cases fault? with
      | some fault =>
        have hrefused : ¬ table.Admits l.labels := by
          intro h
          rw [addLabels_eq_none_iff.mpr ⟨h, rfl⟩] at hadd
          cases hadd
        simp only [Option.some.injEq, hrefused, false_and, or_false]
        constructor
        · rintro rfl
          exact (hfault fault).mp rfl
        · rintro ⟨name, hrepeats, hname⟩
          have hline := hown hrepeats
          rw [hline] at hrepeats
          obtain rfl := Option.some.inj ((hfault _).mpr ⟨name, hrepeats, rfl⟩)
          rw [← hline, ← hname]
      | none =>
        obtain ⟨hadmits, rfl⟩ := addLabels_eq_none_iff.mp hadd
        have hfresh : ∀ name, ¬ Repeats table (l.labels.map (line, ·)) (e.line, name) := by
          intro name hrepeats
          rw [hown hrepeats] at hrepeats
          exact absurd ((hfault _).mpr ⟨name, hrepeats, rfl⟩) (by simp)
        simp only [ih, hadmits, hfresh, false_or, true_and]

/-- **The first repetition** in the order of writing: a label whose name was written before, while
all labels in front of it differ. -/
def FirstRepeated (ls : List Line) (k : Nat) (name : String) : Prop :=
  ∃ before after, occurrencesFrom 0 ls = before ++ (k, name) :: after ∧
    (before.map Prod.snd).Nodup ∧ name ∈ before.map Prod.snd

theorem collectLabels_eq_some_iff {ls : List Line} {e : ParseError} :
    (collectLabels ls).2 = some e ↔
      ∃ name, FirstRepeated ls e.line name ∧ e.fault = .duplicateLabel name := by
  rw [collectLabels, collectFrom_eq_some_iff]
  refine exists_congr fun name => and_congr_left fun _ => exists_congr fun before =>
    exists_congr fun after => and_congr_right fun _ => ?_
  rw [Table.admits_empty_iff, Table.admits_empty_iff]
  refine and_congr_right fun hdistinct => ?_
  simp [List.nodup_append, hdistinct]

/-! ### Lines at fault -/

/-- The first element of a list that is at fault, by its index and its fault. -/
def First {α β : Type} (bad : α → β → Prop) (as : List α) (k : Nat) (b : β) : Prop :=
  (∃ a, as[k]? = some a ∧ bad a b) ∧ ∀ j < k, ∀ a, as[j]? = some a → ∀ b', ¬ bad a b'

section First

variable {α β : Type} {bad : α → β → Prop} {a : α} {as : List α} {k : Nat} {b : β}

theorem not_first_nil : ¬ First bad [] k b := by
  rintro ⟨⟨a, ha, -⟩, -⟩
  cases ha

/-- An element at fault hides those after it. -/
theorem first_cons_of_bad {b' : β} (h : bad a b') :
    First bad (a :: as) k b ↔ k = 0 ∧ bad a b := by
  constructor
  · rintro ⟨⟨a', ha', hbad⟩, hfront⟩
    cases k with
    | zero =>
      obtain rfl := Option.some.inj ha'
      exact ⟨rfl, hbad⟩
    | succ k => exact absurd h (hfront 0 (Nat.succ_pos k) a rfl b')
  · rintro ⟨rfl, hbad⟩
    exact ⟨⟨a, rfl, hbad⟩, fun j hj => absurd hj (Nat.not_lt_zero j)⟩

/-- An element without a fault is passed. -/
theorem first_cons_of_passed (h : ∀ b', ¬ bad a b') :
    First bad (a :: as) k b ↔ ∃ j, k = j + 1 ∧ First bad as j b := by
  constructor
  · rintro ⟨⟨a', ha', hbad⟩, hfront⟩
    cases k with
    | zero =>
      obtain rfl := Option.some.inj ha'
      exact absurd hbad (h b)
    | succ k =>
      exact ⟨k, rfl, ⟨a', ha', hbad⟩, fun j hj => hfront (j + 1) (Nat.succ_lt_succ hj)⟩
  · rintro ⟨j, rfl, ⟨a', ha', hbad⟩, hfront⟩
    refine ⟨⟨a', ha', hbad⟩, fun i hi a'' ha'' => ?_⟩
    cases i with
    | zero =>
      obtain rfl := Option.some.inj ha''
      exact h
    | succ i => exact hfront i (Nat.lt_of_succ_lt_succ hi) a'' ha''

end First

/-- An operand names a label that is not among those defined. -/
def Undefined (defined : List String) (o : Operand) (name : String) : Prop :=
  o = .label name ∧ name ∉ defined

/-- **A line at fault.** It is malformed, or one of its operands names a label that is not among
those defined. Of several such names the leftmost one counts. -/
inductive Statement.FaultyBy (defined : List String) : Statement → LineFault → Prop
  | malformed {fault : LineFault} : FaultyBy defined (.malformed fault) fault
  | undefined {ins : Instruction} {j : Nat} {name : String}
      (h : First (Undefined defined) ins.operands j name) :
      FaultyBy defined (.instruction ins) (.undefinedLabel name)

/-- The line is at fault. -/
def Line.FaultyBy (defined : List String) (l : Line) (fault : LineFault) : Prop :=
  l.statement.FaultyBy defined fault

section Resolving

variable {labels : Table Int}

theorem map_eq_error_iff {ε α β : Type} {x : Except ε α} {f : α → β} {e : ε} :
    x.map f = .error e ↔ x = .error e := by
  cases x with
  | error e' => simp [Except.map]
  | ok a => simp [Except.map]

/-- An operand that names no label, or one that is defined, is resolved by itself. -/
theorem resolveOperands_cons_of_defined {o : Operand}
    (h : ∀ name, ¬ Undefined (labels.entries.map Prod.fst) o name) (os : List Operand) :
    ∃ o', resolveOperands labels (o :: os) = (resolveOperands labels os).map (o' :: ·) := by
  cases o with
  | register index => exact ⟨_, rfl⟩
  | cell index => exact ⟨_, rfl⟩
  | immediate value => exact ⟨_, rfl⟩
  | label name =>
    cases hfind : labels.find? name with
    | none => exact absurd ⟨rfl, Table.find?_eq_none_iff.mp hfind⟩ (h name)
    | some index => exact ⟨.immediate index, by rw [resolveOperands, hfind]⟩

/-- Operands are not resolved exactly if one of them names no label, and the leftmost one is
reported. -/
theorem resolveOperands_eq_error_iff {os : List Operand} {fault : LineFault} :
    resolveOperands labels os = .error fault ↔
      ∃ j name, First (Undefined (labels.entries.map Prod.fst)) os j name ∧
        fault = .undefinedLabel name := by
  induction os with
  | nil => simp [resolveOperands, not_first_nil]
  | cons o os ih =>
    by_cases ho : ∃ name, Undefined (labels.entries.map Prod.fst) o name
    · obtain ⟨name, hundefined⟩ := ho
      simp only [first_cons_of_bad hundefined]
      obtain ⟨rfl, hname⟩ := hundefined
      rw [resolveOperands, Table.find?_eq_none_iff.mpr hname]
      constructor
      · intro h
        exact ⟨0, name, ⟨rfl, rfl, hname⟩, (Except.error.inj h).symm⟩
      · rintro ⟨_, name', ⟨-, heq, -⟩, rfl⟩
        rw [Operand.label.inj heq]
    · rw [not_exists] at ho
      obtain ⟨o', hcons⟩ := resolveOperands_cons_of_defined ho os
      rw [hcons, map_eq_error_iff, ih]
      simp only [first_cons_of_passed ho]
      constructor
      · rintro ⟨j, name, hfirst, rfl⟩
        exact ⟨j + 1, name, ⟨j, rfl, hfirst⟩, rfl⟩
      · rintro ⟨_, name, ⟨j, -, hfirst⟩, rfl⟩
        exact ⟨j, name, hfirst, rfl⟩

theorem resolveInstruction_eq_error_iff {ins : Instruction} {fault : LineFault} :
    resolveInstruction labels ins = .error fault ↔
      Statement.FaultyBy (labels.entries.map Prod.fst) (.instruction ins) fault := by
  rw [resolveInstruction, map_eq_error_iff, resolveOperands_eq_error_iff]
  constructor
  · rintro ⟨j, name, hfirst, rfl⟩
    exact .undefined hfirst
  · intro h
    cases h with
    | undefined hfirst => exact ⟨_, _, hfirst, rfl⟩

/-- A line at fault ends the second pass. -/
theorem resolveFrom_cons_of_faulty {l : Line} {fault : LineFault}
    (h : l.FaultyBy (labels.entries.map Prod.fst) fault) (line : Nat) (ls : List Line) :
    resolveFrom labels line (l :: ls) = .error ⟨line, fault⟩ := by
  obtain ⟨names, statement⟩ := l
  cases statement with
  | none => cases h
  | malformed fault' =>
    cases h with
    | malformed => rfl
  | instruction ins =>
    rw [resolveFrom]
    simp only [resolveInstruction_eq_error_iff.mpr h]

/-- Any other line is passed. -/
theorem resolveFrom_cons_of_passed {l : Line}
    (h : ∀ fault, ¬ l.FaultyBy (labels.entries.map Prod.fst) fault) (line : Nat) (ls : List Line) :
    ∃ f, resolveFrom labels line (l :: ls) = (resolveFrom labels (line + 1) ls).map f := by
  obtain ⟨names, statement⟩ := l
  cases statement with
  | none =>
    refine ⟨id, ?_⟩
    rw [Except.map_id]
    rfl
  | malformed fault => exact absurd .malformed (h fault)
  | instruction ins =>
    cases hins : resolveInstruction labels ins with
    | error fault => exact absurd (resolveInstruction_eq_error_iff.mp hins) (h fault)
    | ok ins' =>
      refine ⟨(ins' :: ·), ?_⟩
      rw [resolveFrom]
      simp only [hins]

/-- **The second pass fails** exactly at the first line at fault. -/
theorem resolveFrom_eq_error_iff {line : Nat} {ls : List Line} {e : ParseError} :
    resolveFrom labels line ls = .error e ↔
      ∃ k, e.line = line + k ∧
        First (Line.FaultyBy (labels.entries.map Prod.fst)) ls k e.fault := by
  induction ls generalizing line with
  | nil => simp [resolveFrom, not_first_nil]
  | cons l ls ih =>
    by_cases hl : ∃ fault, l.FaultyBy (labels.entries.map Prod.fst) fault
    · obtain ⟨fault, hfault⟩ := hl
      simp only [first_cons_of_bad hfault]
      constructor
      · intro h
        rw [resolveFrom_cons_of_faulty hfault] at h
        obtain rfl := Except.error.inj h
        exact ⟨0, rfl, rfl, hfault⟩
      · rintro ⟨_, hline, rfl, hfault'⟩
        rw [resolveFrom_cons_of_faulty hfault']
        exact congrArg (fun n => Except.error (ParseError.mk n e.fault)) hline.symm
    · rw [not_exists] at hl
      obtain ⟨f, hcons⟩ := resolveFrom_cons_of_passed hl line ls
      rw [hcons, map_eq_error_iff, ih]
      simp only [first_cons_of_passed hl]
      constructor
      · rintro ⟨k, hline, hfirst⟩
        exact ⟨k + 1, by omega, k, rfl, hfirst⟩
      · rintro ⟨_, hline, k, rfl, hfirst⟩
        exact ⟨k, by omega, hfirst⟩

/-- The second pass succeeds exactly if no line is at fault. -/
theorem exists_resolveFrom_eq_ok_iff {line : Nat} {ls : List Line} :
    (∃ body, resolveFrom labels line ls = .ok body) ↔
      ∀ l ∈ ls, ∀ fault, ¬ l.FaultyBy (labels.entries.map Prod.fst) fault := by
  induction ls generalizing line with
  | nil => simp [resolveFrom]
  | cons l ls ih =>
    rw [List.forall_mem_cons]
    by_cases hl : ∃ fault, l.FaultyBy (labels.entries.map Prod.fst) fault
    · obtain ⟨fault, hfault⟩ := hl
      rw [resolveFrom_cons_of_faulty hfault]
      constructor
      · rintro ⟨body, hbody⟩
        cases hbody
      · intro h
        exact absurd hfault (h.1 fault)
    · rw [not_exists] at hl
      obtain ⟨f, hcons⟩ := resolveFrom_cons_of_passed hl line ls
      rw [hcons, ← @ih (line + 1), and_iff_right hl]
      cases resolveFrom labels (line + 1) ls with
      | error e => simp [Except.map]
      | ok body => simp [Except.map]

end Resolving

/-! ### Parsing -/

/-- **What is reported** of lines: the first repetition of a label, and if there is none the first
line at fault. The labels of all lines are defined. -/
inductive Reported (ls : List Line) : ParseError → Prop
  | repeated {k : Nat} {name : String} (h : FirstRepeated ls k name) :
      Reported ls ⟨k, .duplicateLabel name⟩
  | faulty {k : Nat} {fault : LineFault} (hdistinct : (labelNames ls).Nodup)
      (h : First (Line.FaultyBy (labelNames ls)) ls k fault) : Reported ls ⟨k, fault⟩

/-- What parsing tells about lines. -/
structure Diagnosis (ls : List Line) (r : Parsed) : Prop where
  reported : ∀ e, r.program = .error e ↔ Reported ls e
  /-- There is a program exactly if no label is written twice and no line is at fault. -/
  parsed : (∃ p, r.program = .ok p) ↔
    (labelNames ls).Nodup ∧ ∀ l ∈ ls, ∀ fault, ¬ l.FaultyBy (labelNames ls) fault
  /-- A fault of a line leaves the labels of all lines, also of those after it. Each has the number
  of instructions that were parsed in the lines before its own. -/
  labels : ∀ e, r.program = .error e → (∀ name, e.fault ≠ .duplicateLabel name) →
    r.labels.entries.map Prod.fst = labelNames ls ∧
      ∀ k l name, ls[k]? = some l → name ∈ l.labels →
        r.labels.find? name = some ((instructionsOf (ls.take k)).length : Int)

/-- A label that is written twice is all that is told. -/
theorem diagnosis_of_repeated {ls : List Line} {t : Table Int} {e : ParseError}
    (h : collectLabels ls = (t, some e)) : Diagnosis ls ⟨t, .error e⟩ := by
  have hrepeated : ∀ e', some e = some e' ↔
      ∃ name, FirstRepeated ls e'.line name ∧ e'.fault = .duplicateLabel name := by
    intro e'
    rw [← collectLabels_eq_some_iff, h]
  have htwice : ¬ (labelNames ls).Nodup := by
    intro hdistinct
    rw [collectLabels_eq_none_iff.mpr ⟨hdistinct, rfl⟩] at h
    cases h
  obtain ⟨name, hfirst, hname⟩ := (hrepeated e).mp rfl
  refine ⟨fun e' => ⟨fun he => ?_, fun he => ?_⟩, ?_, fun e' he hother => ?_⟩
  · obtain rfl := Except.error.inj he
    obtain ⟨k, fault⟩ := e
    obtain rfl : fault = .duplicateLabel name := hname
    exact .repeated hfirst
  · cases he with
    | @repeated k name' h' =>
      have heq := (hrepeated ⟨k, .duplicateLabel name'⟩).mpr ⟨name', h', rfl⟩
      exact congrArg Except.error (Option.some.inj heq)
    | faulty hdistinct _ => exact absurd hdistinct htwice
  · constructor
    · rintro ⟨p, hp⟩
      cases hp
    · intro hall
      exact absurd hall.1 htwice
  · obtain rfl := Except.error.inj he
    exact absurd hname (hother name)

/-- Where no label is written twice, the lines are looked through. -/
theorem diagnosis_of_distinct {ls : List Line} (hdistinct : (labelNames ls).Nodup)
    (f : List Instruction → Program) :
    Diagnosis ls ⟨labelTable ls, (resolveFrom (labelTable ls) 0 ls).map f⟩ := by
  have hnames : (labelTable ls).entries.map Prod.fst = labelNames ls := map_fst_labelsFrom 0 ls
  refine ⟨fun e => ?_, ?_, fun e _ _ => ⟨hnames, fun k l name hl hmem => ?_⟩⟩
  · dsimp only
    rw [map_eq_error_iff, resolveFrom_eq_error_iff, hnames]
    constructor
    · rintro ⟨k, hline, hfirst⟩
      obtain ⟨line, fault⟩ := e
      obtain rfl : line = k := hline.trans (Nat.zero_add k)
      exact .faulty hdistinct hfirst
    · intro h
      cases h with
      | @repeated k name h =>
        -- the first pass would have reported it
        have hsome : (collectLabels ls).2 = some ⟨k, .duplicateLabel name⟩ :=
          collectLabels_eq_some_iff.mpr ⟨name, h, rfl⟩
        rw [collectLabels_eq_none_iff.mpr ⟨hdistinct, rfl⟩] at hsome
        cases hsome
      | faulty _ hfirst => exact ⟨_, (Nat.zero_add _).symm, hfirst⟩
  · rw [and_iff_right hdistinct, ← hnames, ← @exists_resolveFrom_eq_ok_iff _ 0]
    dsimp only
    cases resolveFrom (labelTable ls) 0 ls with
    | error e => simp [Except.map]
    | ok body => simp [Except.map]
  · exact (find?_labelTable_eq_some_iff hdistinct).mpr ⟨k, l, hl, hmem, rfl⟩

/-- **Parsing reports the right error.** A label that is written twice is reported before anything
else, at the first occurrence of a name that was written before. After that the first line at fault
is reported, with its own fault. -/
theorem parse_diagnoses (tokenLines : List (List String)) (defines : Table String) :
    Diagnosis (tokenLines.map Line.ofTokens) (parse tokenLines defines) := by
  unfold parse
  dsimp only
  split
  · next t e hcollect => exact diagnosis_of_repeated hcollect
  · next t hcollect =>
    obtain ⟨hdistinct, rfl⟩ := collectLabels_eq_none_iff.mp hcollect
    exact diagnosis_of_distinct hdistinct _

/-- The repeated label is reported, though two lines in front of it are at fault. -/
example : (parse [["a:", "bad"], ["jmp", "b"], ["c:", "a:"]] .empty).program =
    .error ⟨2, .duplicateLabel "a"⟩ := by
  rfl

end CellMachine.Assembly
