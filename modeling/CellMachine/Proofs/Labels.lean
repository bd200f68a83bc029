import CellMachine.Assembly.Resolve
import CellMachine.Proofs.ParsedLines
import CellMachine.Proofs.Validity

/-!
# Labels and instructions

Labels get their indices in one pass over the lines and are replaced in another. The two passes
count separately, and what they agree on is stated here without either of them:

* the index of a label is the number of instructions in the lines before it (`labelsFrom`);
* an instruction keeps its opcode, and its operands are what they were, with each name of a label
  replaced by the index of the label (`Instruction.Resolves`).

Each pass succeeds exactly if its part of this can be had (`collectFrom_eq_none_iff`,
`resolveFrom_eq_ok_iff`), and parsing if both can (`parse_eq_ok_iff`). What a parsed program has to
do with its lines is then read off (`parse_resolves_labels`).
-/

namespace CellMachine

/-! ### Resolved operands -/

/-- What an operand becomes once labels have indices. The name of a label becomes its index, and
anything else stays as it is. -/
inductive Operand.Resolves (labels : Table Int) : Operand → Operand → Prop
  | label {name : String} {index : Int} (h : labels.find? name = some index) :
      Resolves labels (.label name) (.immediate index)
  | same {o : Operand} (h : o.isLabel = false) : Resolves labels o o

/-- What an instruction becomes once labels have indices. -/
structure Instruction.Resolves (labels : Table Int) (ins ins' : Instruction) : Prop where
  opcode : ins'.opcode = ins.opcode
  operands : List.Forall₂ (Operand.Resolves labels) ins.operands ins'.operands

namespace Assembly

theorem exists_getElem?_of_forall₂ {α β : Type} {R : α → β → Prop} {xs : List α} {ys : List β}
    (h : List.Forall₂ R xs ys) {i : Nat} {x : α} (hx : xs[i]? = some x) :
    ∃ y, ys[i]? = some y ∧ R x y := by
  induction h generalizing i with
  | nil => cases hx
  | cons hhead _ ih =>
    cases i with
    | zero =>
      obtain rfl := Option.some.inj hx
      exact ⟨_, rfl, hhead⟩
    | succ i => exact ih hx

theorem resolves_label_iff {labels : Table Int} {name : String} {o : Operand} :
    Operand.Resolves labels (.label name) o ↔
      ∃ index, labels.find? name = some index ∧ o = .immediate index := by
  constructor
  · intro h
    cases h with
    | label h => exact ⟨_, h, rfl⟩
    | same h => cases h
  · rintro ⟨index, h, rfl⟩
    exact .label h

theorem resolves_iff_eq {labels : Table Int} {o o' : Operand} (ho : o.isLabel = false) :
    Operand.Resolves labels o o' ↔ o' = o := by
  constructor
  · intro h
    cases h with
    | label h => cases ho
    | same h => rfl
  · rintro rfl
    exact .same ho

theorem map_cons_eq_ok_iff {ε α : Type} {x : Except ε (List α)} {a : α} {as : List α} :
    x.map (a :: ·) = .ok as ↔ ∃ rest, x = .ok rest ∧ as = a :: rest := by
  cases x with
  | error e => simp [Except.map]
  | ok rest => simp [Except.map, eq_comm]

theorem resolveOperands_cons {o : Operand} (ho : o.isLabel = false) (labels : Table Int)
    (os : List Operand) :
    resolveOperands labels (o :: os) = (resolveOperands labels os).map (o :: ·) := by
  cases o with
  | label name => cases ho
  | register index => rfl
  | cell index => rfl
  | immediate value => rfl

theorem resolveOperands_eq_ok_iff {labels : Table Int} {os os' : List Operand} :
    resolveOperands labels os = .ok os' ↔ List.Forall₂ (Operand.Resolves labels) os os' := by
  induction os generalizing os' with
  | nil =>
    rw [List.forall₂_nil_left_iff, resolveOperands, Except.ok.injEq, eq_comm]
  | cons o os ih =>
    rw [List.forall₂_cons_left_iff]
    by_cases ho : o.isLabel = false
    · rw [resolveOperands_cons ho, map_cons_eq_ok_iff]
      simp only [ih, resolves_iff_eq ho, exists_and_left, exists_eq_left]
    · -- the name of a label is looked up
      obtain ⟨name, rfl⟩ : ∃ name, o = .label name := by
        cases o with
        | label name => exact ⟨name, rfl⟩
        | register index => exact absurd rfl ho
        | cell index => exact absurd rfl ho
        | immediate value => exact absurd rfl ho
      rw [resolveOperands]
      simp only [resolves_label_iff]
      cases hfind : labels.find? name with
      | none => simp
      | some index =>
        simp only [map_cons_eq_ok_iff, ih, Option.some.injEq]
        constructor
        · rintro ⟨rest, hrest, rfl⟩
          exact ⟨_, rest, ⟨index, rfl, rfl⟩, hrest, rfl⟩
        · rintro ⟨_, rest, ⟨_, rfl, rfl⟩, hrest, rfl⟩
          exact ⟨rest, hrest, rfl⟩

theorem resolveInstruction_eq_ok_iff {labels : Table Int} {ins ins' : Instruction} :
    resolveInstruction labels ins = .ok ins' ↔ ins.Resolves labels ins' := by
  unfold resolveInstruction
  obtain ⟨opcode', os'⟩ := ins'
  constructor
  · intro h
    cases hos : resolveOperands labels ins.operands with
    | error fault =>
      rw [hos] at h
      cases h
    | ok os =>
      rw [hos] at h
      obtain ⟨rfl, rfl⟩ := Instruction.mk.inj (Except.ok.inj h)
      exact ⟨rfl, resolveOperands_eq_ok_iff.mp hos⟩
  · rintro ⟨rfl, hos⟩
    rw [resolveOperands_eq_ok_iff.mpr hos]
    rfl

/-! ### The second pass -/

/-- The instructions of lines, in order. -/
def instructionsOf (ls : List Line) : List Instruction := ls.filterMap Line.instruction?

theorem instructionsOf_cons_none (names : List String) (ls : List Line) :
    instructionsOf (⟨names, .none⟩ :: ls) = instructionsOf ls := rfl

theorem instructionsOf_cons_instruction (names : List String) (ins : Instruction)
    (ls : List Line) :
    instructionsOf (⟨names, .instruction ins⟩ :: ls) = ins :: instructionsOf ls := rfl

theorem instructionsOf_append (ls ls' : List Line) :
    instructionsOf (ls ++ ls') = instructionsOf ls ++ instructionsOf ls' :=
  List.filterMap_append

theorem instructionsOf_cons (l : Line) (ls : List Line) :
    instructionsOf (l :: ls) = instructionsOf [l] ++ instructionsOf ls :=
  instructionsOf_append [l] ls

/-- No line is malformed. -/
def WellFormedLines (ls : List Line) : Prop := ∀ l ∈ ls, ∀ fault, l.statement ≠ .malformed fault

/-- **The second pass** succeeds exactly if no line is malformed and every instruction can be
resolved. -/
theorem resolveFrom_eq_ok_iff {labels : Table Int} {line : Nat} {ls : List Line}
    {body : List Instruction} :
    resolveFrom labels line ls = .ok body ↔
      WellFormedLines ls ∧ List.Forall₂ (Instruction.Resolves labels) (instructionsOf ls) body := by
  induction ls generalizing line body with
  | nil =>
    rw [resolveFrom, Except.ok.injEq, eq_comm]
    simp [WellFormedLines, instructionsOf]
  | cons l ls ih =>
    obtain ⟨names, statement⟩ := l
    rw [WellFormedLines, List.forall_mem_cons, resolveFrom]
    cases statement with
    | none =>
      rw [instructionsOf_cons_none]
      simp [ih, WellFormedLines]
    | malformed fault => simp
    | instruction ins =>
      rw [instructionsOf_cons_instruction, List.forall₂_cons_left_iff]
      simp only [← resolveInstruction_eq_ok_iff]
      cases hins : resolveInstruction labels ins with
      | error fault => simp
      | ok ins' =>
        simp only [map_cons_eq_ok_iff, ih, Except.ok.injEq]
        constructor
        · rintro ⟨rest, ⟨hls, hrest⟩, rfl⟩
          exact ⟨⟨fun _ h => (nomatch h), hls⟩, ins', rest, rfl, hrest, rfl⟩
        · rintro ⟨⟨-, hls⟩, _, rest, rfl, hrest, rfl⟩
          exact ⟨rest, ⟨hls, hrest⟩, rfl⟩

/-! ### The first pass -/

/-- Names of labels with the index that they share. -/
def labelled (index : Nat) (names : List String) : List (String × Int) :=
  names.map fun name => (name, (index : Int))

@[simp] theorem map_fst_labelled (index : Nat) (names : List String) :
    (labelled index names).map Prod.fst = names := by
  rw [labelled, List.map_map]
  exact List.map_id names

/-- The labels of lines in the order in which they are written, each with the number of instructions
before it, the first of which has the given index. -/
def labelsFrom (index : Nat) : List Line → List (String × Int)
  | [] => []
  | l :: ls => labelled index l.labels ++ labelsFrom (index + (instructionsOf [l]).length) ls

/-- The names of the labels of lines, in the order in which they are written. -/
def labelNames (ls : List Line) : List String := ls.flatMap Line.labels

theorem map_fst_labelsFrom (index : Nat) (ls : List Line) :
    (labelsFrom index ls).map Prod.fst = labelNames ls := by
  induction ls generalizing index with
  | nil => rfl
  | cons l ls ih =>
    rw [labelsFrom, List.map_append, ih, map_fst_labelled]
    rfl

theorem addLabels_eq_none_iff {index : Nat} {table t : Table Int} {names : List String} :
    addLabels index table names = (t, none) ↔
      table.Admits names ∧ t = table.extend (labelled index names) := by
  induction names generalizing table with
  | nil => simp [addLabels, labelled, Table.admits_nil, eq_comm]
  | cons name names ih =>
    rw [Table.admits_cons_iff (index : Int), addLabels, Table.contains]
    cases hfind : table.find? name with
    | some i => simp
    | none =>
      simp only [Option.isSome_none, Bool.false_eq_true, if_false, ih, true_and,
        Table.insert_eq_extend hfind, Table.extend_extend]
      rfl

/-- **The first pass** succeeds exactly if no label is written twice, and then every label has its
index. -/
theorem collectFrom_eq_none_iff {line index : Nat} {table t : Table Int} {ls : List Line} :
    collectFrom line index table ls = (t, none) ↔
      table.Admits (labelNames ls) ∧ t = table.extend (labelsFrom index ls) := by
  induction ls generalizing line index table with
  | nil => simp [collectFrom, labelNames, labelsFrom, Table.admits_nil, eq_comm]
  | cons l ls ih =>
    have hnext : (if l.hasInstruction then index + 1 else index) =
        index + (instructionsOf [l]).length := by
      obtain ⟨names, statement⟩ := l
      cases statement with
      | none => rfl
      | instruction ins => rfl
      | malformed fault => rfl
    have hnames : table.Admits (labelNames (l :: ls)) ↔ table.Admits l.labels ∧
        (table.extend (labelled index l.labels)).Admits (labelNames ls) := by
      have h := @Table.admits_append_iff _ table (labelled index l.labels) (labelNames ls)
      rwa [map_fst_labelled] at h
    rw [hnames, labelsFrom, ← Table.extend_extend, collectFrom, hnext]
    -- the labels of the line decide whether the others are looked at
    cases hadd : addLabels index table l.labels with
    | mk t' fault? =>
      cases fault? with
      | some fault =>
        have hnot : ¬ table.Admits l.labels := by
          intro h
          rw [addLabels_eq_none_iff.mpr ⟨h, rfl⟩] at hadd
          cases hadd
        simp [hnot]
      | none =>
        obtain ⟨hadmits, rfl⟩ := addLabels_eq_none_iff.mp hadd
        simp only [ih, hadmits, true_and]

/-- A label is found at the line in which it is written. -/
theorem mem_labelsFrom_iff {index : Nat} {ls : List Line} {name : String} {i : Int} :
    (name, i) ∈ labelsFrom index ls ↔
      ∃ k l, ls[k]? = some l ∧ name ∈ l.labels ∧
        i = (index : Int) + (instructionsOf (ls.take k)).length := by
  induction ls generalizing index with
  | nil => simp [labelsFrom]
  | cons l ls ih =>
    rw [labelsFrom, List.mem_append, ih, labelled, List.mem_map]
    constructor
    · rintro (⟨n, hn, heq⟩ | ⟨k, l', hl', hn, rfl⟩)
      · obtain ⟨rfl, rfl⟩ := Prod.mk.inj heq
        exact ⟨0, l, rfl, hn, by simp [instructionsOf]⟩
      · refine ⟨k + 1, l', hl', hn, ?_⟩
        rw [List.take_succ_cons, instructionsOf_cons l (ls.take k), List.length_append]
        omega
    · rintro ⟨k, l', hl', hn, rfl⟩
      cases k with
      | zero =>
        obtain rfl := Option.some.inj hl'
        exact Or.inl ⟨name, hn, by simp [instructionsOf]⟩
      | succ k =>
        refine Or.inr ⟨k, l', hl', hn, ?_⟩
        rw [List.take_succ_cons, instructionsOf_cons l (ls.take k), List.length_append]
        omega

theorem length_instructionsOf_take_le (ls : List Line) (k : Nat) :
    (instructionsOf (ls.take k)).length ≤ (instructionsOf ls).length :=
  ((List.take_sublist k ls).filterMap _).length_le

theorem length_instructionsOf_take {ls : List Line} {k : Nat}
    (h : instructionsOf (ls.drop k) = []) :
    (instructionsOf (ls.take k)).length = (instructionsOf ls).length := by
  have hls := instructionsOf_append (ls.take k) (ls.drop k)
  rw [List.take_append_drop, h, List.append_nil] at hls
  rw [hls]

/-- The indices of labels do not decrease. -/
theorem pairwise_labelsFrom (index : Nat) (ls : List Line) :
    (labelsFrom index ls).Pairwise fun x y => x.2 ≤ y.2 := by
  induction ls generalizing index with
  | nil => exact .nil
  | cons l ls ih =>
    rw [labelsFrom, List.pairwise_append]
    refine ⟨?_, ih _, ?_⟩
    · -- labels of one line share their index
      rw [labelled, List.pairwise_map]
      exact List.pairwise_of_forall fun _ _ => Int.le_refl _
    · rintro ⟨n, i⟩ hx ⟨m, j⟩ hy
      obtain ⟨n', -, heq⟩ := List.mem_map.mp hx
      obtain ⟨rfl, rfl⟩ := Prod.mk.inj heq
      obtain ⟨k, l', -, -, rfl⟩ := mem_labelsFrom_iff.mp hy
      dsimp only
      omega

/-! ### Parsing -/

/-- A resolved instruction comes from one that can be written in source text. -/
theorem exists_written_of_resolves {labels : Table Int} {tokenLines : List (List String)}
    {body : List Instruction}
    (h : List.Forall₂ (Instruction.Resolves labels)
      (instructionsOf (tokenLines.map Line.ofTokens)) body)
    {ins' : Instruction} (hmem : ins' ∈ body) :
    ∃ ins : Instruction, ins.Written ∧ ins.Resolves labels ins' := by
  obtain ⟨i, hi⟩ := List.mem_iff_getElem?.mp hmem
  obtain ⟨ins, hins, hresolves⟩ := exists_getElem?_of_forall₂ h.flip hi
  obtain ⟨l, hl, hins⟩ := List.mem_filterMap.mp (List.mem_iff_getElem?.mpr ⟨i, hins⟩)
  obtain ⟨tokens, -, rfl⟩ := List.mem_map.mp hl
  exact ⟨ins, Line.written_of_instruction? hins, hresolves⟩

/-- Instructions of lines do not stop, so they are closed with a sentinel. -/
theorem closed_of_resolves {labels : Table Int} {tokenLines : List (List String)}
    {body : List Instruction}
    (h : List.Forall₂ (Instruction.Resolves labels)
      (instructionsOf (tokenLines.map Line.ofTokens)) body) :
    Program.closed body.toArray = body.toArray.push .sentinel := by
  refine Program.closed_eq_push fun ins' hins' => ?_
  obtain ⟨ins, hwritten, hresolves⟩ := exists_written_of_resolves h (List.mem_toArray.mp hins')
  rw [hresolves.opcode]
  exact hwritten.ne_stop

/-- The label table of lines in which no label is written twice. -/
def labelTable (ls : List Line) : Table Int := ⟨labelsFrom 0 ls⟩

theorem collectLabels_eq_none_iff {ls : List Line} {t : Table Int} :
    collectLabels ls = (t, none) ↔ (labelNames ls).Nodup ∧ t = labelTable ls := by
  rw [collectLabels, collectFrom_eq_none_iff, Table.admits_empty_iff]
  rfl

/-- The index of a label is one of the instructions, or the one after them. -/
theorem labelTable_bounds {ls : List Line} {x : String × Int} (hx : x ∈ (labelTable ls).entries) :
    0 ≤ x.2 ∧ x.2 ≤ (instructionsOf ls).length := by
  obtain ⟨k, l, -, -, hindex⟩ := mem_labelsFrom_iff.mp hx
  have hle := length_instructionsOf_take_le ls k
  omega

/-- A label has the number of instructions in the lines before its own. -/
theorem find?_labelTable_eq_some_iff {ls : List Line} (h : (labelNames ls).Nodup) {name : String}
    {i : Int} :
    (labelTable ls).find? name = some i ↔
      ∃ k l, ls[k]? = some l ∧ name ∈ l.labels ∧ i = (instructionsOf (ls.take k)).length := by
  have hdistinct : ((labelTable ls).entries.map Prod.fst).Nodup := by
    rw [labelTable, map_fst_labelsFrom]
    exact h
  rw [Table.find?_eq_some_iff hdistinct, labelTable, mem_labelsFrom_iff]
  simp only [Int.natCast_zero, Int.zero_add]

/-- **Parsing succeeds** exactly if no label is written twice, no line is malformed, and every
instruction can be resolved. -/
theorem parse_eq_ok_iff {tokenLines : List (List String)} {defines : Table String} {p : Program} :
    (parse tokenLines defines).program = .ok p ↔
      ∃ ls body, ls = tokenLines.map Line.ofTokens ∧ (labelNames ls).Nodup ∧ WellFormedLines ls ∧
        List.Forall₂ (Instruction.Resolves (labelTable ls)) (instructionsOf ls) body ∧
        p = ⟨body.toArray.push .sentinel, ((labelTable ls).find? startLabel).getD 0, defines,
          labelTable ls⟩ := by
  unfold parse
  dsimp only
  constructor
  · intro h
    split at h
    · cases h
    · next t hcollect =>
      obtain ⟨hnames, rfl⟩ := collectLabels_eq_none_iff.mp hcollect
      dsimp only at h
      cases hbody : resolveFrom (labelTable (tokenLines.map Line.ofTokens)) 0
          (tokenLines.map Line.ofTokens) with
      | error e =>
        rw [hbody] at h
        cases h
      | ok body =>
        rw [hbody] at h
        obtain ⟨hlines, hresolves⟩ := resolveFrom_eq_ok_iff.mp hbody
        refine ⟨_, body, rfl, hnames, hlines, hresolves, ?_⟩
        rw [← closed_of_resolves hresolves]
        exact (Except.ok.inj h).symm
  · rintro ⟨_, body, rfl, hnames, hlines, hresolves, rfl⟩
    rw [collectLabels_eq_none_iff.mpr ⟨hnames, rfl⟩]
    dsimp only
    rw [resolveFrom_eq_ok_iff.mpr ⟨hlines, hresolves⟩, ← closed_of_resolves hresolves]
    rfl

/-! ### Programs and their lines -/

/-- The instruction of a line comes after those of the lines before. -/
theorem getElem?_instructionsOf {ls : List Line} {k : Nat} {l : Line} {ins : Instruction}
    (hl : ls[k]? = some l) (hins : l.instruction? = some ins) :
    (instructionsOf ls)[(instructionsOf (ls.take k)).length]? = some ins := by
  have hsplit : ls = ls.take k ++ l :: ls.drop (k + 1) := by
    obtain ⟨hk, rfl⟩ := List.getElem?_eq_some_iff.mp hl
    rw [← List.drop_eq_getElem_cons hk, List.take_append_drop]
  have hhead : instructionsOf [l] = [ins] := by
    rw [instructionsOf, List.filterMap_cons_some hins, List.filterMap_nil]
  have hls : instructionsOf ls =
      instructionsOf (ls.take k) ++ ins :: instructionsOf (ls.drop (k + 1)) := by
    conv_lhs => rw [hsplit]
    rw [instructionsOf_append, instructionsOf_cons, hhead, List.singleton_append]
  rw [hls, List.getElem?_append_right (Nat.le_refl _), Nat.sub_self, List.getElem?_cons_zero]

/-- What a program has to do with the lines it was parsed from. -/
structure Resolved (ls : List Line) (p : Program) : Prop where
  /-- A line has labels and an instruction, or labels alone. -/
  wellFormed : WellFormedLines ls
  /-- The instructions are those of the lines, in order and resolved, and the sentinel. -/
  instructions : ∃ body, p.instructions.toList = body ++ [.sentinel] ∧
    List.Forall₂ (Instruction.Resolves p.labels) (instructionsOf ls) body
  /-- No label is written twice. -/
  distinct : (labelNames ls).Nodup
  /-- The table has the labels in the order in which they are written. -/
  names : p.labels.entries.map Prod.fst = labelNames ls
  /-- The index of a label is the number of instructions in the lines before its own. -/
  index : ∀ name i, p.labels.find? name = some i ↔
    ∃ k l, ls[k]? = some l ∧ name ∈ l.labels ∧ i = (instructionsOf (ls.take k)).length
  /-- That index is the one of the instruction in its own line, if there is one. -/
  own : ∀ k l ins, ls[k]? = some l → l.instruction? = some ins →
    ∃ ins', p.instructions[(instructionsOf (ls.take k)).length]? = some ins' ∧
      ins.Resolves p.labels ins'
  /-- It is the one of the sentinel if no instruction follows. -/
  trailing : ∀ k, instructionsOf (ls.drop k) = [] →
    p.instructions[(instructionsOf (ls.take k)).length]? = some .sentinel
  /-- The program starts at its start label, or else at its front. -/
  start : p.start = (p.labels.find? startLabel).getD 0
  /-- The indices do not decrease along the table. -/
  ascending : p.labels.entries.Pairwise fun x y => x.2 ≤ y.2

/-- **Labels are resolved to the instructions they stand before.** -/
theorem parse_resolves_labels {tokenLines : List (List String)} {defines : Table String}
    {p : Program} (h : (parse tokenLines defines).program = .ok p) :
    Resolved (tokenLines.map Line.ofTokens) p := by
  obtain ⟨ls, body, hls, hnames, hlines, hresolves, rfl⟩ := parse_eq_ok_iff.mp h
  rw [← hls]
  have hget : ∀ i : Nat, (body.toArray.push .sentinel)[i]? = (body ++ [.sentinel])[i]? := by
    intro i
    rw [← Array.getElem?_toList, Array.toList_push]
  exact
    { wellFormed := hlines
      instructions := ⟨body, Array.toList_push, hresolves⟩
      distinct := hnames
      names := map_fst_labelsFrom 0 ls
      index := fun name i => find?_labelTable_eq_some_iff hnames
      own := by
        intro k l ins hl hins
        obtain ⟨ins', hins', hr⟩ :=
          exists_getElem?_of_forall₂ hresolves (getElem?_instructionsOf hl hins)
        have hlt := (List.getElem?_eq_some_iff.mp hins').1
        refine ⟨ins', ?_, hr⟩
        rw [hget, List.getElem?_append_left hlt]
        exact hins'
      trailing := by
        intro k hk
        rw [hget, length_instructionsOf_take hk, hresolves.length_eq, List.getElem?_concat_length]
      start := rfl
      ascending := pairwise_labelsFrom 0 ls }

/-- Lines with a label used before and after it is set, two labels in one line, a line without
tokens, and a label at the end. -/
def crossedLines : List (List String) :=
  [["start:", "jmp", "done"], [], ["a:", "b:", "mov", "eax", "start"], ["jmp", "b"], ["done:"]]

theorem crossedLines_resolved :
    ∃ p, (parse crossedLines .empty).program = .ok p ∧
      p.instructions = #[⟨.jmp, [.immediate 3]⟩, ⟨.mov, [.register 0, .immediate 0]⟩,
        ⟨.jmp, [.immediate 1]⟩, .sentinel] ∧
      p.labels.entries = [("start", 0), ("a", 1), ("b", 1), ("done", 3)] ∧
      Resolved (crossedLines.map Line.ofTokens) p :=
  ⟨_, rfl, rfl, rfl, parse_resolves_labels rfl⟩

end Assembly

end CellMachine
