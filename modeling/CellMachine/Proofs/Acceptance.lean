import CellMachine.Context
import CellMachine.Proofs.Labels

/-!
# Assembled programs are accepted

A program is checked twice, by rules that are written down separately: its lines when they are
parsed, and its instructions when it is loaded. The first check is the stricter one. An instruction
that can be written in source text and has no label is well-formed
(`Instruction.Written.wellFormed`), and resolving gives such instructions as long as the indices of
labels are 32-bit words (`Instruction.Resolves.written`). They are if there are no more instructions
than such indices, and then whatever was assembled can be loaded (`assembled_accepted`).
-/

namespace CellMachine

/-! ### Instructions without labels -/

/-- No operand is a label. -/
def Instruction.LabelFree (ins : Instruction) : Prop := ∀ o ∈ ins.operands, o.isLabel = false

theorem Operand.Written.wellFormed {kind : OperandKind} {o : Operand} (h : o.Written kind)
    (hlabel : o.isLabel = false) : o.WellFormed kind := by
  cases o with
  | register index => cases kind <;> exact h
  | cell index => cases kind <;> exact h.1
  | immediate value => cases kind <;> exact h
  | label name => cases hlabel

theorem Instruction.Written.wellFormed {ins : Instruction} (h : ins.Written)
    (hfree : ins.LabelFree) : ins.WellFormed := by
  obtain ⟨hlength, hoperands⟩ := List.forall₂_iff_zip.mp h.operands
  refine ⟨hlength.symm, fun x hx => ?_⟩
  exact Operand.Written.wellFormed (hoperands hx) (hfree x.2 (List.of_mem_zip hx).2)

/-- Every operand can be written as some kind. -/
theorem Instruction.Written.operand {ins : Instruction} (h : ins.Written) {o : Operand}
    (ho : o ∈ ins.operands) : ∃ kind, o.Written kind := by
  obtain ⟨k, hk⟩ := List.mem_iff_getElem?.mp ho
  obtain ⟨kind, -, hwritten⟩ := Assembly.exists_getElem?_of_forall₂ h.operands.flip hk
  exact ⟨kind, hwritten⟩

/-! ### Resolving -/

/-- Every label has a 32-bit index. -/
def Table.InRange (labels : Table Int) : Prop :=
  ∀ name i, labels.find? name = some i → Word.InRange i

theorem Operand.Resolves.written {labels : Table Int} (hlabels : labels.InRange) {o o' : Operand}
    (h : o.Resolves labels o') {kind : OperandKind} (hwritten : o.Written kind) :
    o'.Written kind ∧ o'.isLabel = false := by
  cases h with
  | same hlabel => exact ⟨hwritten, hlabel⟩
  | label hfind =>
    -- a label is never a target, so its index is read
    cases kind with
    | target => exact hwritten.elim
    | source => exact ⟨hlabels _ _ hfind, rfl⟩

theorem Operand.Resolves.all_written {labels : Table Int} (hlabels : labels.InRange)
    {os os' : List Operand} (h : List.Forall₂ (Operand.Resolves labels) os os')
    {kinds : List OperandKind} (hwritten : List.Forall₂ Operand.Written kinds os) :
    List.Forall₂ Operand.Written kinds os' ∧ ∀ o ∈ os', o.isLabel = false := by
  induction h generalizing kinds with
  | nil => exact ⟨hwritten, fun o ho => nomatch ho⟩
  | cons hhead _ ih =>
    obtain ⟨kind, kinds, hkind, hkinds, rfl⟩ := List.forall₂_cons_right_iff.mp hwritten
    obtain ⟨hwritten, hlabel⟩ := hhead.written hlabels hkind
    obtain ⟨hrest, hfree⟩ := ih hkinds
    exact ⟨.cons hwritten hrest, List.forall_mem_cons.mpr ⟨hlabel, hfree⟩⟩

/-- **Resolving** leaves an instruction that can be written, without its labels. -/
theorem Instruction.Resolves.written {labels : Table Int} (hlabels : labels.InRange)
    {ins ins' : Instruction} (h : ins.Resolves labels ins') (hwritten : ins.Written) :
    ins'.Written ∧ ins'.LabelFree := by
  obtain ⟨hos, hfree⟩ := Operand.Resolves.all_written hlabels h.operands hwritten.operands
  refine ⟨⟨?_, ?_⟩, hfree⟩
  · rw [h.opcode]
    exact hwritten.executable
  · rw [h.opcode]
    exact hos

/-- What is promised of an assembled program. -/
structure Program.Assembled (p : Program) : Prop where
  /-- The sentinel comes last, and no other instruction stops. -/
  sentinel : ∃ body, p.instructions.toList = body ++ [.sentinel] ∧
    ∀ ins ∈ body, ins.opcode ≠ .stop
  start : 0 ≤ p.start ∧ p.start ≤ (p.size : Int) - 1
  labels : ∀ x ∈ p.labels.entries, 0 ≤ x.2 ∧ x.2 ≤ (p.size : Int) - 1
  /-- Every instruction has the operands of its signature. -/
  wellFormed : ∀ ins ∈ p.instructions, ins.WellFormed
  /-- A cell has a 32-bit index. -/
  cells : ∀ ins ∈ p.instructions, ∀ i, Operand.cell i ∈ ins.operands → i ≤ Word.maximum

namespace Assembly

theorem inRange_labelTable {ls : List Line}
    (hcount : ((instructionsOf ls).length : Int) ≤ Word.maximum) : (labelTable ls).InRange := by
  intro name i hfind
  have hbounds := labelTable_bounds (Table.mem_entries_of_find? hfind)
  dsimp only at hbounds
  unfold Word.InRange Word.minimum
  omega

/-- **What was parsed** can be written and has no labels, if it has no more instructions than there
are 32-bit indices. -/
theorem written_of_resolves {tokenLines : List (List String)} {labels : Table Int}
    {body : List Instruction} (hlabels : labels.InRange)
    (h : List.Forall₂ (Instruction.Resolves labels)
      (instructionsOf (tokenLines.map Line.ofTokens)) body) :
    ∀ ins ∈ body, ins.Written ∧ ins.LabelFree := by
  intro ins' hmem
  obtain ⟨ins, hwritten, hresolves⟩ := exists_written_of_resolves h hmem
  exact Instruction.Resolves.written hlabels hresolves hwritten

/-- The start of a parsed program is one of its instructions, or the sentinel. -/
theorem start_bounds (ls : List Line) :
    0 ≤ ((labelTable ls).find? startLabel).getD 0 ∧
      ((labelTable ls).find? startLabel).getD 0 ≤ (instructionsOf ls).length := by
  cases hfind : (labelTable ls).find? startLabel with
  | none => exact ⟨Int.le_refl 0, Int.natCast_nonneg _⟩
  | some i => exact labelTable_bounds (Table.mem_entries_of_find? hfind)

/-- A cell of a resolved instruction was there before. -/
theorem cell_mem_of_resolves {labels : Table Int} {ins ins' : Instruction}
    (h : ins.Resolves labels ins') {i : Int} (hi : Operand.cell i ∈ ins'.operands) :
    Operand.cell i ∈ ins.operands := by
  obtain ⟨k, hk⟩ := List.mem_iff_getElem?.mp hi
  obtain ⟨o, ho, hresolves⟩ := exists_getElem?_of_forall₂ h.operands.flip hk
  -- a label would have become a number
  cases hresolves with
  | same hlabel => exact List.mem_iff_getElem?.mpr ⟨k, ho⟩

/-- **The cells of a parsed program** have 32-bit indices, however many instructions it has. -/
theorem cells_of_parse {tokenLines : List (List String)} {defines : Table String} {p : Program}
    (h : (parse tokenLines defines).program = .ok p) {ins : Instruction}
    (hins : ins ∈ p.instructions) {i : Int} (hi : Operand.cell i ∈ ins.operands) :
    0 ≤ i ∧ i ≤ Word.maximum := by
  obtain ⟨_, body, rfl, -, -, hresolves, rfl⟩ := parse_eq_ok_iff.mp h
  rcases Array.mem_push.mp hins with hbody | rfl
  · obtain ⟨ins', hwritten, hresolved⟩ := exists_written_of_resolves hresolves
      (List.mem_toArray.mp hbody)
    obtain ⟨kind, hcell⟩ := hwritten.operand (cell_mem_of_resolves hresolved hi)
    exact Operand.Written.source hcell
  · cases hi

/-- **A parsed program** has what is promised of it. -/
theorem assembled_of_parse {tokenLines : List (List String)} {defines : Table String} {p : Program}
    (hcount : ((instructionsOf (tokenLines.map Line.ofTokens)).length : Int) ≤ Word.maximum)
    (h : (parse tokenLines defines).program = .ok p) : p.Assembled := by
  obtain ⟨ls, body, rfl, hnames, hlines, hresolves, rfl⟩ := parse_eq_ok_iff.mp h
  have hwritten := written_of_resolves (inRange_labelTable hcount) hresolves
  have hmem : ∀ ins ∈ body.toArray.push .sentinel, ins ∈ body ∨ ins = .sentinel := by
    intro ins hins
    exact (Array.mem_push.mp hins).imp_left List.mem_toArray.mp
  have hlast : ((body.toArray.push .sentinel).size : Int) - 1 =
      (instructionsOf (tokenLines.map Line.ofTokens)).length := by
    rw [Array.size_push, List.size_toArray, hresolves.length_eq]
    omega
  exact
    { sentinel := ⟨body, Array.toList_push, fun ins hins => (hwritten ins hins).1.ne_stop⟩
      start := by
        rw [Program.size, hlast]
        exact start_bounds _
      labels := by
        intro x hx
        rw [Program.size, hlast]
        exact labelTable_bounds hx
      wellFormed := by
        intro ins hins
        rcases hmem ins hins with hbody | rfl
        · exact (hwritten ins hbody).1.wellFormed (hwritten ins hbody).2
        · exact ⟨rfl, fun x hx => nomatch hx⟩
      cells := by
        intro ins hins i hi
        exact (cells_of_parse h hins hi).2 }

/-- What was assembled was parsed. -/
theorem exists_parse_of_assemble {files : Files.Live} {base : Option Files.Path} {rounds : Nat}
    {source : String} {defines : Table String} {log log' : Array Log.Record} {p : Program}
    (h : assemble files base rounds source defines log = (.ok p, log')) :
    ∃ tokenLines defines', (parse tokenLines defines').program = .ok p := by
  unfold assemble at h
  dsimp only at h
  split at h
  · cases h
  · cases h
  · split at h
    · cases h
    · next hparse =>
      obtain ⟨hp, -⟩ := Prod.mk.inj h
      obtain rfl := Except.ok.inj hp
      exact ⟨_, _, hparse⟩

/-- A parsed program has one instruction for each line that has one, and the sentinel. -/
theorem size_of_parse {tokenLines : List (List String)} {defines : Table String} {p : Program}
    (h : (parse tokenLines defines).program = .ok p) :
    p.size = (instructionsOf (tokenLines.map Line.ofTokens)).length + 1 := by
  obtain ⟨ls, body, rfl, -, -, hresolves, rfl⟩ := parse_eq_ok_iff.mp h
  rw [Program.size, Array.size_push, List.size_toArray, hresolves.length_eq]

end Assembly

theorem Program.Assembled.validate {p : Program} (h : p.Assembled) : p.validate = .ok () := by
  rw [Program.validate_eq_ok_iff]
  refine ⟨⟨h.start.1, ?_⟩, fun ins hins _ => h.wellFormed ins hins⟩
  have hstart := h.start.2
  omega

theorem Context.load_of_validate {p : Program} (h : p.validate = .ok ()) (c : Context) :
    ∃ c', load p c = .ok () c' := by
  unfold load
  rw [h]
  exact ⟨_, rfl⟩

namespace Assembly

/-- **Whatever the assembler accepts can be loaded.** A program that was parsed from lines with no
more instructions than 32-bit indices is valid and has what is promised of it. So loading what was
assembled from a source text does not fail. -/
theorem assembled_accepted :
    (∀ (tokenLines : List (List String)) (defines : Table String) (p : Program),
      ((instructionsOf (tokenLines.map Line.ofTokens)).length : Int) ≤ Word.maximum →
      (parse tokenLines defines).program = .ok p → p.validate = .ok () ∧ p.Assembled) ∧
    (∀ (files : Files.Live) (base : Option Files.Path) (rounds : Nat) (source : String)
      (defines : Table String) (log log' : Array Log.Record) (p : Program),
      assemble files base rounds source defines log = (.ok p, log') →
      (p.size : Int) - 1 ≤ Word.maximum → ∀ c, ∃ c', Context.load p c = .ok () c') := by
  constructor
  · intro tokenLines defines p hcount h
    have hassembled := assembled_of_parse hcount h
    exact ⟨hassembled.validate, hassembled⟩
  · intro files base rounds source defines log log' p h hsize c
    obtain ⟨tokenLines, defines', hparse⟩ := exists_parse_of_assemble h
    -- the sentinel is the one instruction that has no line
    have hcount :
        ((instructionsOf (tokenLines.map Line.ofTokens)).length : Int) ≤ Word.maximum := by
      have hlines := size_of_parse hparse
      omega
    exact Context.load_of_validate (assembled_of_parse hcount hparse).validate c

/-- A text that jumps to its last label, where it also starts, and names the last cell and the least
number. -/
def edgeSource : String := "a: jmp start\nmov [2147483647], -2147483648\nb: start:\n"

/-- The program of that text. -/
def edgeProgram : Program :=
  ⟨#[⟨.jmp, [.immediate 2]⟩, ⟨.mov, [.cell 2147483647, .immediate (-2147483648)]⟩, .sentinel], 2,
    .empty, ⟨[("a", 0), ("b", 2), ("start", 2)]⟩⟩

theorem edgeSource_accepted :
    ((parse (tokenize .empty edgeSource) .empty).program = .ok edgeProgram ∧
      edgeProgram.validate = .ok () ∧ edgeProgram.Assembled) ∧
    (assemble (Files.still fun _ => .error .notFound) none 1 edgeSource .empty #[] =
        (.ok edgeProgram, #[]) ∧
      ∀ c, ∃ c', Context.load edgeProgram c = .ok () c') := by
  have hparse : (parse (tokenize .empty edgeSource) .empty).program = .ok edgeProgram := by
    decide +kernel
  have hassemble : assemble (Files.still fun _ => .error .notFound) none 1 edgeSource .empty #[] =
      (.ok edgeProgram, #[]) := by
    decide +kernel
  exact ⟨⟨hparse, assembled_accepted.1 _ _ _ (by decide +kernel) hparse⟩, hassemble,
    assembled_accepted.2 _ _ _ _ _ _ _ _ hassemble (by decide)⟩

end Assembly

end CellMachine
