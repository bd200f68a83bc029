import CellMachine.Proofs.Directives
import CellMachine.Proofs.Notation

/-!
# A listing can be assembled again

The listing of a program shows its labels and instructions, one a line. `sourceOfListing` takes the
columns in front of the instructions and the line of the sentinel away; what is left is source text
for the same program (`assemble_listing`).

Between the two stand the labels and instructions of a program as a sequence of items
(`itemsFrom`), each of which is one line of the listing, of the source text, of tokens and of the
parsed lines. Three things are to be seen of a sequence:

* its source text is what `sourceOfListing` leaves of the listing (`sourceOfListing_listing`);
* each item is read back from its source text (`Item.words_source`, `Item.ofTokens_tokens`);
* the labels, which a listing groups by their indices, come in the order of the table, since their
  indices do not decrease (`labelsFrom_items`).
-/

namespace CellMachine.Assembly

/-! ### From a listing to source text -/

/-- A line of a listing as source text. An instruction is without its index, the mark of the start
and five spaces; the line of the sentinel is left out; the line of a label stays as it is. -/
def sourceLine? (line : List Char) : Option (List Char) :=
  if line.head?.any Char.isDigit then
    let text := (line.dropWhile Char.isDigit).drop (1 + 5)
    if text = "<end>".toList then none else some text
  else some line

/-- A listing as source text. -/
def sourceOfListing (listing : String) : String :=
  String.ofList
    (['\n'].intercalate
      ((Text.splitWhere (· == '\n') listing.toList).filterMap sourceLine?))

/-! ### Items -/

/-- What a line of a listing shows. -/
inductive Item where
  | label (name : String)
  | instruction (ins : Instruction)

namespace Item

/-- The item can be written in source text. -/
def Written : Item → Prop
  | .label name => isLabelName name = true
  | .instruction ins => ins.Written ∧ ins.LabelFree

/-- The item in source text. -/
def source : Item → List Char
  | .label name => ("      " ++ name ++ ":").toList
  | .instruction ins => ins.text.toList

def tokens : Item → List String
  | .label name => [name ++ ":"]
  | .instruction ins => ins.opcode.mnemonic :: ins.operands.map Operand.text

def line : Item → Line
  | .label name => ⟨[name], .none⟩
  | .instruction ins => ⟨[], .instruction ins⟩

variable {i : Item}

theorem source_label (name : String) :
    (Item.label name).source = "      ".toList ++ (name ++ ":").toList := by
  rw [source, String.append_assoc, String.toList_append]

theorem isSeparator_of_mem_indent : ∀ c ∈ "      ".toList, isSeparator c = true :=
  List.all_eq_true.mp (by decide)

theorem words_source (h : i.Written) : words i.source = i.tokens := by
  cases i with
  | instruction ins => exact words_text h.1 h.2
  | label name =>
    rw [source_label, words_append_separators isSeparator_of_mem_indent,
      words_token (isToken_of_isPlain (isPlain_label h)), String.ofList_toList]
    rfl

theorem ofTokens_tokens (h : i.Written) : Line.ofTokens i.tokens = i.line := by
  cases i with
  | label name => exact Line.ofTokens_label h
  | instruction ins => exact Line.ofTokens_text h.1 h.2

theorem plain_or_separator_of_mem_source (h : i.Written) {c : Char} (hc : c ∈ i.source) :
    isPlain c = true ∨ isSeparator c = true := by
  cases i with
  | instruction ins => exact plain_or_separator_of_mem_text h.1 h.2 hc
  | label name =>
    rw [source_label] at hc
    rcases List.mem_append.mp hc with hc | hc
    · exact Or.inr (isSeparator_of_mem_indent c hc)
    · exact Or.inl ((isPlain_label h).2 c hc)

/-- No line feed, comment or directive can be seen in an item. -/
theorem not_mem_source (h : i.Written) {c : Char} (hplain : isPlain c = false)
    (hseparator : isSeparator c = false) : c ∉ i.source := by
  intro hc
  rcases plain_or_separator_of_mem_source h hc with hc | hc
  · rw [hplain] at hc
    cases hc
  · rw [hseparator] at hc
    cases hc

theorem source_ne_nil (h : i.Written) : i.source ≠ [] := by
  intro hnil
  have hwords := words_source h
  rw [hnil, words_nil] at hwords
  cases i with
  | label name => cases hwords
  | instruction ins => cases hwords

end Item

/-- The labels and instructions from an index on, each label before the instruction at its index. -/
def itemsFrom (p : Program) (index : Nat) : List Instruction → List Item
  | [] => (p.labelsAt index).map .label
  | ins :: rest => (p.labelsAt index).map .label ++ .instruction ins :: itemsFrom p (index + 1) rest

theorem written_itemsFrom {p : Program} (hlabels : ∀ x ∈ p.labels.entries, isLabelName x.1 = true)
    {body : List Instruction} (hbody : ∀ ins ∈ body, ins.Written ∧ ins.LabelFree) (index : Nat) :
    ∀ i ∈ itemsFrom p index body, i.Written := by
  -- the labels at an index are some of the table
  have hat : ∀ index, ∀ i ∈ (p.labelsAt index).map Item.label, i.Written := by
    intro index i hi
    obtain ⟨name, hname, rfl⟩ := List.mem_map.mp hi
    obtain ⟨x, hx, rfl⟩ := List.mem_map.mp hname
    exact hlabels x (List.mem_filter.mp hx).1
  induction body generalizing index with
  | nil => exact hat index
  | cons ins rest ih =>
    rw [List.forall_mem_cons] at hbody
    intro i hi
    rw [itemsFrom, List.mem_append, List.mem_cons] at hi
    rcases hi with hi | rfl | hi
    · exact hat index i hi
    · exact hbody.1
    · exact ih hbody.2 (index + 1) i hi

/-! ### Lines of a listing -/

theorem toUpper_of_isDigit {c : Char} (h : c.isDigit = true) : c.toUpper = c := by
  -- digits come before the letters
  refine dif_neg fun hlower => ?_
  exact absurd (UInt32.le_trans hlower.1 (isDigit_bounds h).2) (by decide)

/-- The column of the index, in digits. -/
def indexColumn (index : Nat) : List Char := Text.padLeft 4 '0' (Text.upperDigits 10 index)

theorem isDigit_of_mem_indexColumn {index : Nat} {c : Char} (hc : c ∈ indexColumn index) :
    c.isDigit = true := by
  rcases List.mem_append.mp hc with hc | hc
  · rw [List.eq_of_mem_replicate hc]
    rfl
  · obtain ⟨d, hd, rfl⟩ := List.mem_map.mp hc
    have hdigit := isDigit_of_mem_toDigits hd
    rwa [toUpper_of_isDigit hdigit]

theorem indexColumn_ne_nil (index : Nat) : indexColumn index ≠ [] := by
  intro h
  exact Nat.toDigits_ne_nil (List.map_eq_nil_iff.mp (List.append_eq_nil_iff.mp h).2)

/-- An instruction is shown after the column of the index, the mark of the start and five spaces. -/
theorem toList_listingLine (start : Int) (index : Nat) (ins : Instruction) :
    (Program.listingLine start index ins).toList =
      indexColumn index ++ (if (index : Int) = start then '>' else ' ') ::
        ("     ".toList ++ (if ins.opcode = .stop then "<end>" else ins.text).toList) := by
  have hcolumn : (Text.zeroPadded 10 4 index).toList = indexColumn index := by
    rw [Text.zeroPadded, if_neg (by omega), String.toList_ofList, Int.natAbs_natCast]
    rfl
  rw [Program.listingLine, String.toList_append, String.toList_append, String.toList_append,
    hcolumn, List.append_assoc, List.append_assoc]
  split <;> rfl

/-- What is shown in a line of an instruction is what is left of it. -/
theorem sourceLine?_columns (index : Nat) {mark : Char} (hmark : mark.isDigit = false)
    (text : List Char) :
    sourceLine? (indexColumn index ++ mark :: ("     ".toList ++ text)) =
      if text = "<end>".toList then none else some text := by
  have hdigits : ∀ c ∈ indexColumn index, c.isDigit = true :=
    fun c hc => isDigit_of_mem_indexColumn hc
  have hhead : (indexColumn index ++ mark :: ("     ".toList ++ text)).head?.any Char.isDigit =
      true := by
    cases hcolumn : indexColumn index with
    | nil => exact absurd hcolumn (indexColumn_ne_nil index)
    | cons d ds => exact hdigits d (hcolumn ▸ List.mem_cons_self)
  have hdrop : ((indexColumn index ++ mark :: ("     ".toList ++ text)).dropWhile
      Char.isDigit).drop (1 + 5) = text := by
    rw [List.dropWhile_append_of_pos hdigits, List.dropWhile_cons_of_neg (by simp [hmark])]
    rfl
  rw [sourceLine?, if_pos hhead]
  dsimp only
  rw [hdrop]

theorem isDigit_mark (start : Int) (index : Nat) :
    (if (index : Int) = start then '>' else ' ').isDigit = false := by
  split <;> rfl

theorem sourceLine?_instruction {ins : Instruction} (h : (Item.instruction ins).Written)
    (start : Int) (index : Nat) :
    sourceLine? (Program.listingLine start index ins).toList =
      some (Item.instruction ins).source := by
  -- an angle bracket is not plain, so no instruction looks like the sentinel
  have hend : (Item.instruction ins).source ≠ "<end>".toList := by
    intro heq
    have hnot : '<' ∉ (Item.instruction ins).source := Item.not_mem_source h rfl rfl
    rw [heq] at hnot
    exact hnot (by decide)
  rw [toList_listingLine, if_neg h.1.ne_stop, sourceLine?_columns index (isDigit_mark start index)]
  exact if_neg hend

theorem sourceLine?_sentinel (start : Int) (index : Nat) :
    sourceLine? (Program.listingLine start index .sentinel).toList = none := by
  rw [toList_listingLine, sourceLine?_columns index (isDigit_mark start index)]
  rfl

theorem sourceLine?_label (name : String) :
    sourceLine? ("      " ++ name ++ ":").toList = some (Item.label name).source := by
  have hhead : ¬ (Item.label name).source.head?.any Char.isDigit = true := by
    rw [Item.source_label]
    exact Bool.false_ne_true
  exact if_neg hhead

/-- The lines of a listing are those of its items. -/
theorem filterMap_listingFrom (p : Program) {body : List Instruction}
    (h : ∀ ins ∈ body, ins.Written ∧ ins.LabelFree) (index : Nat) :
    ((p.listingFrom index (body ++ [.sentinel])).map String.toList).filterMap sourceLine? =
      (itemsFrom p index body).map Item.source := by
  have hlabels : ∀ names : List String,
      ((names.map fun name => "      " ++ name ++ ":").map String.toList).filterMap sourceLine? =
        (names.map Item.label).map Item.source := by
    intro names
    induction names with
    | nil => rfl
    | cons name names ih =>
      simp only [List.map_cons, List.filterMap_cons_some (sourceLine?_label name), ih]
  -- on the instructions; the last line is the one of the sentinel
  induction body generalizing index with
  | nil =>
    rw [List.nil_append, Program.listingFrom, Program.listingFrom, List.map_append,
      List.filterMap_append, hlabels, List.map_singleton,
      List.filterMap_cons_none (sourceLine?_sentinel p.start index), List.filterMap_nil,
      List.append_nil]
    rfl
  | cons ins rest ih =>
    rw [List.forall_mem_cons] at h
    rw [List.cons_append, Program.listingFrom, List.map_append, List.filterMap_append, hlabels,
      List.map_cons, List.filterMap_cons_some (sourceLine?_instruction h.1 p.start index), ih h.2,
      itemsFrom, List.map_append, List.map_cons]

theorem mem_listingFrom {p : Program} {index : Nat} {is : List Instruction} {line : String}
    (h : line ∈ p.listingFrom index is) :
    (∃ x ∈ p.labels.entries, line = "      " ++ x.1 ++ ":") ∨
      ∃ i, ∃ ins ∈ is, line = Program.listingLine p.start i ins := by
  induction is generalizing index with
  | nil => cases h
  | cons ins rest ih =>
    rw [Program.listingFrom, List.mem_append, List.mem_cons] at h
    rcases h with h | rfl | h
    · obtain ⟨name, hname, rfl⟩ := List.mem_map.mp h
      obtain ⟨x, hx, rfl⟩ := List.mem_map.mp hname
      exact Or.inl ⟨x, (List.mem_filter.mp hx).1, rfl⟩
    · exact Or.inr ⟨index, ins, List.mem_cons_self, rfl⟩
    · exact (ih h).imp_right fun ⟨i, ins', hmem, heq⟩ =>
        ⟨i, ins', List.mem_cons_of_mem ins hmem, heq⟩

/-- A line of a listing is one line. -/
theorem not_mem_listingLine {ins : Instruction}
    (h : ins = .sentinel ∨ (Item.instruction ins).Written) (start : Int) (index : Nat) :
    '\n' ∉ (Program.listingLine start index ins).toList := by
  have hshown : '\n' ∉ (if ins.opcode = .stop then "<end>" else ins.text).toList := by
    rcases h with rfl | h
    · decide
    · rw [if_neg h.1.ne_stop]
      exact Item.not_mem_source h rfl rfl
  have hcolumn : '\n' ∉ indexColumn index := fun hc =>
    absurd (isDigit_of_mem_indexColumn hc) (by decide)
  have hmark : '\n' ≠ if (index : Int) = start then '>' else ' ' := by
    split <;> decide
  rw [toList_listingLine, List.mem_append, List.mem_cons, List.mem_append]
  rintro (hc | hc | hc | hc)
  · exact hcolumn hc
  · exact hmark hc
  · revert hc
    decide
  · exact hshown hc

theorem listingFrom_ne_nil (p : Program) (index : Nat) (body : List Instruction) :
    p.listingFrom index (body ++ [.sentinel]) ≠ [] := by
  cases body with
  | nil => simp [Program.listingFrom]
  | cons ins rest => simp [Program.listingFrom]

/-- **The source text of a listing** has its items, one a line. -/
theorem sourceOfListing_listing {p : Program} {body : List Instruction}
    (hinstructions : p.instructions.toList = body ++ [.sentinel])
    (hlabels : ∀ x ∈ p.labels.entries, isLabelName x.1 = true)
    (hbody : ∀ ins ∈ body, ins.Written ∧ ins.LabelFree) :
    sourceOfListing p.listing =
      String.ofList (['\n'].intercalate ((itemsFrom p 0 body).map Item.source)) := by
  have hlines : ∀ s ∈ (p.listingFrom 0 (body ++ [.sentinel])).map String.toList, ∀ c ∈ s,
      (c == '\n') = false := by
    intro s hs c hc
    obtain ⟨line, hline, rfl⟩ := List.mem_map.mp hs
    rw [beq_eq_false_iff_ne]
    rintro rfl
    rcases mem_listingFrom hline with ⟨x, hx, rfl⟩ | ⟨i, ins, hins, rfl⟩
    · have hlabel : (Item.label x.1).Written := hlabels x hx
      exact Item.not_mem_source hlabel rfl rfl hc
    · refine not_mem_listingLine ?_ p.start i hc
      rw [List.mem_append, List.mem_singleton] at hins
      exact hins.symm.imp_right (hbody ins)
  have hne : (p.listingFrom 0 (body ++ [.sentinel])).map String.toList ≠ [] := by
    intro h
    exact listingFrom_ne_nil p 0 body (List.map_eq_nil_iff.mp h)
  have hsplit := @Text.splitWhere_intercalate (· == '\n') '\n' rfl _ hne hlines
  rw [sourceOfListing, Program.listing, hinstructions, String.toList_intercalate,
    show "\n".toList = ['\n'] from rfl, hsplit, filterMap_listingFrom p hbody]

/-! ### Lines of items -/

theorem instructionsOf_labels (names : List String) :
    instructionsOf ((names.map Item.label).map Item.line) = [] := by
  induction names with
  | nil => rfl
  | cons name names ih =>
    rw [List.map_cons, List.map_cons, Item.line, instructionsOf_cons_none, ih]

theorem instructionsOf_items (p : Program) (index : Nat) (body : List Instruction) :
    instructionsOf ((itemsFrom p index body).map Item.line) = body := by
  induction body generalizing index with
  | nil => exact instructionsOf_labels _
  | cons ins rest ih =>
    rw [itemsFrom, List.map_append, instructionsOf_append, instructionsOf_labels, List.nil_append,
      List.map_cons, Item.line, instructionsOf_cons_instruction, ih]

theorem wellFormedLines_items (items : List Item) : WellFormedLines (items.map Item.line) := by
  intro l hl fault hfault
  obtain ⟨i, -, rfl⟩ := List.mem_map.mp hl
  cases i with
  | label name => cases hfault
  | instruction ins => cases hfault

theorem labelsFrom_labels (index : Nat) (names : List String) (ls : List Line) :
    labelsFrom index ((names.map Item.label).map Item.line ++ ls) =
      labelled index names ++ labelsFrom index ls := by
  induction names with
  | nil => rfl
  | cons name names ih =>
    have hone : (instructionsOf [(Item.label name).line]).length = 0 := rfl
    rw [List.map_cons, List.map_cons, List.cons_append, labelsFrom, hone, Nat.add_zero, ih]
    rfl

theorem labelled_labelsAt (p : Program) (index : Nat) :
    labelled index (p.labelsAt index) = p.labels.entries.filter fun x => x.2 = (index : Int) := by
  have hsame : ∀ x ∈ p.labels.entries.filter (fun x => x.2 = (index : Int)),
      (x.1, (index : Int)) = x := by
    intro x hx
    have hindex := of_decide_eq_true (List.mem_filter.mp hx).2
    exact Prod.ext rfl hindex.symm
  rw [labelled, Program.labelsAt, List.map_map]
  exact (List.map_congr_left hsame).trans (List.map_id' _)

/-- Entries whose indices do not decrease begin with those of the least index. -/
theorem filter_le_eq {entries : List (String × Int)} (h : entries.Pairwise fun x y => x.2 ≤ y.2)
    (index : Int) :
    entries.filter (fun x => index ≤ x.2) =
      entries.filter (fun x => x.2 = index) ++ entries.filter (fun x => index + 1 ≤ x.2) := by
  induction entries with
  | nil => rfl
  | cons x rest ih =>
    rw [List.pairwise_cons] at h
    rcases Int.lt_trichotomy x.2 index with hlt | heq | hgt
    · rw [List.filter_cons_of_neg (by simpa using hlt), List.filter_cons_of_neg (by simp; omega),
        List.filter_cons_of_neg (by simp; omega), ih h.2]
    · rw [List.filter_cons_of_pos (by simp; omega), List.filter_cons_of_pos (by simpa using heq),
        List.filter_cons_of_neg (by simp; omega), ih h.2, List.cons_append]
    · -- no later entry has the index
      have hnone : rest.filter (fun y => y.2 = index) = [] := by
        rw [List.filter_eq_nil_iff]
        intro y hy
        have hle := h.1 y hy
        simp only [decide_eq_true_eq]
        omega
      rw [List.filter_cons_of_pos (by simp; omega), List.filter_cons_of_neg (by simp; omega),
        List.filter_cons_of_pos (by simp; omega), ih h.2, hnone, List.nil_append, List.nil_append]

/-- **The labels of the items** are those of the table, in its order. -/
theorem labelsFrom_items {p : Program} (hsorted : p.labels.entries.Pairwise fun x y => x.2 ≤ y.2)
    {index : Nat} {body : List Instruction}
    (hbound : ∀ x ∈ p.labels.entries, x.2 ≤ (index + body.length : Nat)) :
    labelsFrom index ((itemsFrom p index body).map Item.line) =
      p.labels.entries.filter fun x => (index : Int) ≤ x.2 := by
  -- at each index the labels there come first, and the later ones with the rest of the items
  induction body generalizing index with
  | nil =>
    -- past the last instruction there are none
    have hnone : p.labels.entries.filter (fun x => (index : Int) + 1 ≤ x.2) = [] := by
      rw [List.filter_eq_nil_iff]
      intro x hx
      have hle := hbound x hx
      rw [List.length_nil, Nat.add_zero] at hle
      simp only [decide_eq_true_eq]
      omega
    have h := labelsFrom_labels index (p.labelsAt index) []
    rw [List.append_nil] at h
    rw [itemsFrom, h, labelled_labelsAt, filter_le_eq hsorted, hnone]
    rfl
  | cons ins rest ih =>
    have hrest := @ih (index + 1) (by
      intro x hx
      have hle := hbound x hx
      rw [List.length_cons] at hle
      omega)
    have hone : (instructionsOf [(Item.instruction ins).line]).length = 1 := rfl
    rw [itemsFrom, List.map_append, labelsFrom_labels, List.map_cons, labelsFrom, hone, hrest,
      labelled_labelsAt, filter_le_eq hsorted index]
    rfl

/-- Every label comes from index 0 on. -/
theorem labelTable_items {p : Program} (hsorted : p.labels.entries.Pairwise fun x y => x.2 ≤ y.2)
    {body : List Instruction}
    (hbounds : ∀ x ∈ p.labels.entries, 0 ≤ x.2 ∧ x.2 ≤ (body.length : Int)) :
    labelTable ((itemsFrom p 0 body).map Item.line) = p.labels := by
  have hall : p.labels.entries.filter (fun x => ((0 : Nat) : Int) ≤ x.2) = p.labels.entries := by
    rw [List.filter_eq_self]
    intro x hx
    simpa using (hbounds x hx).1
  rw [labelTable, labelsFrom_items hsorted, hall]
  intro x hx
  rw [Nat.zero_add]
  exact (hbounds x hx).2

/-! ### Assembling a listing -/

/-- Names in the label table of token lines can be written. -/
theorem isLabelName_of_mem_labelTable {tokenLines : List (List String)} {x : String × Int}
    (hx : x ∈ (labelTable (tokenLines.map Line.ofTokens)).entries) : isLabelName x.1 = true := by
  obtain ⟨k, l, hl, hname, -⟩ := mem_labelsFrom_iff.mp hx
  obtain ⟨tokens, -, rfl⟩ := List.mem_map.mp (List.mem_of_getElem? hl)
  exact Line.isLabelName_of_mem_labels hname

/-- An instruction without labels is resolved by any table to itself. -/
theorem resolves_self {labels : Table Int} {ins : Instruction} (h : ins.LabelFree) :
    ins.Resolves labels ins :=
  ⟨rfl, List.forall₂_same.mpr fun o ho => .same (h o ho)⟩

/-- **The items of a parsed program**, as lines, are parsed to the same program. -/
theorem parse_items {p : Program} {body : List Instruction}
    (hinstructions : p.instructions = body.toArray.push .sentinel)
    (hbody : ∀ ins ∈ body, ins.Written ∧ ins.LabelFree)
    (hlabels : ∀ x ∈ p.labels.entries, isLabelName x.1 = true)
    (hdistinct : (p.labels.entries.map Prod.fst).Nodup)
    (htable : labelTable ((itemsFrom p 0 body).map Item.line) = p.labels)
    (hstart : p.start = (p.labels.find? startLabel).getD 0) (defines : Table String) :
    (parse ((itemsFrom p 0 body).map Item.tokens) defines).program =
      .ok { p with defines := defines } := by
  have hread : ((itemsFrom p 0 body).map Item.tokens).map Line.ofTokens =
      (itemsFrom p 0 body).map Item.line := by
    rw [List.map_map]
    exact List.map_congr_left fun i hi =>
      Item.ofTokens_tokens (written_itemsFrom hlabels hbody 0 i hi)
  refine parse_eq_ok_iff.mpr ⟨_, body, hread.symm, ?_, wellFormedLines_items _, ?_, ?_⟩
  · have hentries : labelsFrom 0 ((itemsFrom p 0 body).map Item.line) = p.labels.entries :=
      congrArg Table.entries htable
    rw [← map_fst_labelsFrom 0, hentries]
    exact hdistinct
  · rw [instructionsOf_items]
    exact List.forall₂_same.mpr fun ins hins => resolves_self (hbody ins hins).2
  · rw [htable, ← hstart, ← hinstructions]

/-- The source text of items holds no directive, and is assembled to what their tokens are parsed
to. -/
theorem assemble_source {items : List Item} (hitems : ∀ i ∈ items, i.Written) {q : Program}
    (h : (parse (items.map Item.tokens) .empty).program = .ok q) (files : Files.Live)
    (base : Option Files.Path) (rounds : Nat) (log : Array Log.Record) :
    assemble files base (rounds + 1)
      (String.ofList (['\n'].intercalate (items.map Item.source))) .empty log = (.ok q, log) := by
  have hpercent : '%' ∉ ['\n'].intercalate (items.map Item.source) := by
    intro hc
    rcases Text.mem_of_mem_intercalate hc with hc | ⟨s, hs, hc⟩
    · revert hc
      decide
    · obtain ⟨i, hi, rfl⟩ := List.mem_map.mp hs
      exact Item.not_mem_source (hitems i hi) rfl rfl hc
  have hlines : ∀ s ∈ items.map Item.source, s ≠ [] ∧ '\n' ∉ s := by
    intro s hs
    obtain ⟨i, hi, rfl⟩ := List.mem_map.mp hs
    exact ⟨Item.source_ne_nil (hitems i hi), Item.not_mem_source (hitems i hi) rfl rfl⟩
  have htokens : tokenize .empty (String.ofList (['\n'].intercalate (items.map Item.source))) =
      items.map Item.tokens := by
    rw [tokenize_intercalate hlines, List.map_map]
    exact List.map_congr_left fun i hi => Item.words_source (hitems i hi)
  -- both marks begin with a percent sign
  have hinclude : ¬ includeMark <:+: ['\n'].intercalate (items.map Item.source) :=
    fun hmark => hpercent (hmark.subset (by decide))
  have hdefine : ¬ defineMark <:+: ['\n'].intercalate (items.map Item.source) :=
    fun hmark => hpercent (hmark.subset (by decide))
  have hexpand := @Expansion.after_of_free files base
    (Expansion.start (String.ofList (['\n'].intercalate (items.map Item.source))) .empty log) rfl
    (by rwa [Expansion.start, String.toList_ofList])
    (by rwa [Expansion.start, String.toList_ofList]) rounds
  unfold assemble
  rw [hexpand]
  dsimp only [Expansion.start]
  rw [String.ofList_toList, htokens, h]

/-- **Assembling a listing gives the program back.** What was parsed from lines with no more
instructions than 32-bit indices is the program of its own listing: the instructions, the labels in
their order and the start are the same. No file is read and nothing is logged. -/
theorem assemble_listing {tokenLines : List (List String)} {defines : Table String} {p : Program}
    (hcount : ((instructionsOf (tokenLines.map Line.ofTokens)).length : Int) ≤ Word.maximum)
    (h : (parse tokenLines defines).program = .ok p) (files : Files.Live)
    (base : Option Files.Path) (rounds : Nat) (log : Array Log.Record) :
    ∃ q, assemble files base (rounds + 1) (sourceOfListing p.listing) .empty log = (.ok q, log) ∧
      q.instructions = p.instructions ∧ q.labels = p.labels ∧ q.start = p.start := by
  obtain ⟨ls, body, rfl, hnames, -, hresolves, rfl⟩ := parse_eq_ok_iff.mp h
  have hbody := written_of_resolves (inRange_labelTable hcount) hresolves
  -- from here on only the parts of the program matter, and not how it was parsed
  generalize hp : (⟨body.toArray.push .sentinel, _, defines, _⟩ : Program) = p
  have hlabels : ∀ x ∈ p.labels.entries, isLabelName x.1 = true := by
    rw [← hp]
    exact fun x hx => isLabelName_of_mem_labelTable hx
  have hdistinct : (p.labels.entries.map Prod.fst).Nodup := by
    rw [← hp, labelTable, map_fst_labelsFrom]
    exact hnames
  have htable : labelTable ((itemsFrom p 0 body).map Item.line) = p.labels := by
    refine labelTable_items ?_ ?_
    · rw [← hp]
      exact pairwise_labelsFrom 0 _
    · rw [← hp, ← hresolves.length_eq]
      exact fun x hx => labelTable_bounds hx
  have hinstructions : p.instructions = body.toArray.push .sentinel := by rw [← hp]
  have hstart : p.start = (p.labels.find? startLabel).getD 0 := by rw [← hp]
  have hitems := written_itemsFrom hlabels hbody 0
  have hsource : sourceOfListing p.listing =
      String.ofList (['\n'].intercalate ((itemsFrom p 0 body).map Item.source)) :=
    sourceOfListing_listing (by rw [hinstructions, Array.toList_push]) hlabels hbody
  have hparse := parse_items hinstructions hbody hlabels hdistinct htable hstart .empty
  refine ⟨{ p with defines := .empty }, ?_, rfl, rfl, rfl⟩
  rw [hsource]
  exact assemble_source hitems hparse files base rounds log

/-- Lines with two labels at one index in an order of their own, a negative number, a cell, a start
in the middle, and a label at the end. -/
def groupedLines : List (List String) :=
  [["b:"], ["a:", "mov", "eax", "-7"], ["start:", "mov", "[12]", "z"], ["ret"], ["z:"]]

/-- The program of those lines. -/
def groupedProgram : Program :=
  ⟨#[⟨.mov, [.register 0, .immediate (-7)]⟩, ⟨.mov, [.cell 12, .immediate 3]⟩, ⟨.ret, []⟩,
    .sentinel], 1, .empty, ⟨[("b", 0), ("a", 0), ("start", 1), ("z", 3)]⟩⟩

theorem groupedLines_assemble_listing :
    (parse groupedLines .empty).program = .ok groupedProgram ∧
    groupedProgram.listing = "      b:\n      a:\n0000      mov   eax, -7\n" ++
      "      start:\n0001>     mov   [12], 3\n0002      ret\n      z:\n0003      <end>" ∧
    sourceOfListing groupedProgram.listing =
      "      b:\n      a:\nmov   eax, -7\n      start:\nmov   [12], 3\nret\n      z:" ∧
    ∃ q, assemble (Files.still fun _ => .error .notFound) none 1
        (sourceOfListing groupedProgram.listing) .empty #[] = (.ok q, #[]) ∧
      q.instructions = groupedProgram.instructions ∧ q.labels = groupedProgram.labels ∧
      q.start = groupedProgram.start := by
  have hparse : (parse groupedLines .empty).program = .ok groupedProgram := by
    decide +kernel
  exact ⟨hparse, by decide +kernel, by decide +kernel,
    assemble_listing (by decide +kernel) hparse _ none 0 #[]⟩

end CellMachine.Assembly
