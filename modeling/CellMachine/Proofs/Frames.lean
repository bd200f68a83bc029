import CellMachine.Proofs.Effects

/-!
# What a step leaves unchanged

A step touches only what its opcode may touch. The flags are set by a comparison, the remainder by
a modulo and the output by a print; a register changes only as the target of the instruction, as
the stack pointer of an instruction of the stack, or as the instruction pointer of a transfer of
control; one cell changes at most, and it is the target or the cell that was pushed to
(`Machine.Framed`).

A step that fails leaves still more as it was: only the stack pointer can have moved, and only a
call can have written a cell, when it pushed its index and then could not read its target
(`Machine.FaultFramed`).

Both are read off the effects of an instruction, one part of the machine at a time, and
`Session.step_touches_only` puts them together for the step of a validated program on any machine.
-/

namespace CellMachine

namespace Machine

variable {m m' : Machine} {ins : Instruction} {o : Operand} {fault : Fault}

/-- An instruction of this opcode transfers control. A conditional jump does so when it is taken. -/
def Transfers (m : Machine) (opcode : Opcode) : Prop :=
  opcode = .jmp ∨ opcode = .call ∨ opcode = .ret ∨ m.taken? opcode = some true

/-- **The frame of an instruction** that succeeds. -/
structure Framed (ins : Instruction) (m m' : Machine) : Prop where
  /-- The block keeps its size and its kind. -/
  block : m'.cellCount = m.cellCount ∧ m'.checked = m.checked ∧ m'.stackSize = m.stackSize ∧
    m'.released = m.released
  flags : m'.flags = m.flags ∨ ins.opcode = .cmp
  remainder : m'.remainder = m.remainder ∨ ins.opcode = .mod
  /-- A print adds one line to the output. -/
  output : if ins.opcode = .prn then ∃ v : Int, m'.output = m.output ++ (toString v ++ "\n")
    else m'.output = m.output
  register : ∀ s, m'.registers.get s = m.registers.get s ∨ ins.Writes (.ofSlot s) ∨
    s = Slot.sp ∧ ins.opcode.stackDelta ≠ 0 ∨ s = Slot.ip ∧ m.Transfers ins.opcode
  /-- The cell that is pushed to is the one that the stack pointer then refers to. -/
  cell : ∀ c : Nat, m'.cells.get c = m.cells.get c ∨ ins.Writes (.cell c) ∨
    ins.opcode.stackDelta = 1 ∧ (c : Int) = m'.registers.sp % m.cellCount
  one_cell : ∀ c d : Nat, m'.cells.get c ≠ m.cells.get c → m'.cells.get d ≠ m.cells.get d → c = d

/-- **The frame of an instruction** that fails. -/
structure FaultFramed (ins : Instruction) (fault : Fault) (m m' : Machine) : Prop where
  block : m'.cellCount = m.cellCount ∧ m'.checked = m.checked ∧ m'.stackSize = m.stackSize ∧
    m'.released = m.released
  flags : m'.flags = m.flags
  remainder : m'.remainder = m.remainder
  output : m'.output = m.output
  /-- The instruction pointer is one of these registers. -/
  register : ∀ s, s ≠ Slot.sp → m'.registers.get s = m.registers.get s
  pointer : m'.registers.get Slot.sp = m.registers.get Slot.sp ∨
    ins.opcode ∈ [Opcode.push, .pushf, .call, .pop, .popf]
  /-- A call has pushed its index, and then could not read its target. -/
  cell : ∀ c : Nat, m'.cells.get c = m.cells.get c ∨
    ins.opcode = .call ∧ (c : Int) = m'.registers.sp % m.cellCount ∧
      m'.cells.get c = Word.wrap m.registers.ip ∧
      ∃ target, ins.operands = [target] ∧ m'.valueOf target = .error fault

/-! ### Writes through an operand -/

/-- What a write through an operand cannot reach. -/
theorem Wrote.rest (hw : m.Wrote o m') :
    (m'.cellCount = m.cellCount ∧ m'.checked = m.checked ∧ m'.stackSize = m.stackSize ∧
      m'.released = m.released) ∧
    m'.flags = m.flags ∧ m'.remainder = m.remainder ∧ m'.printed = m.printed := by
  cases hw with
  | register v hs => exact ⟨⟨rfl, rfl, rfl, rfl⟩, rfl, rfl, rfl⟩
  | cell v hc => exact ⟨⟨rfl, rfl, rfl, rfl⟩, rfl, rfl, rfl⟩

/-- A register is as it was, or it is the target. -/
theorem Wrote.register_cases (hw : m.Wrote o m') (ho : Operand.WellFormed .target o) (s : Slot) :
    m'.registers.get s = m.registers.get s ∨ o = .ofSlot s := by
  by_cases hs : o = .ofSlot s
  · exact Or.inr hs
  · exact Or.inl (hw.get_of_ne ho hs)

/-- A cell is as it was, or it is the target. -/
theorem Wrote.cell_cases (hw : m.Wrote o m') (ho : Operand.WellFormed .target o) (c : Nat) :
    m'.cells.get c = m.cells.get c ∨ o = .cell c := by
  cases hw with
  | register v hs => exact Or.inl rfl
  | @cell i d v hd =>
    by_cases hdc : d = c
    · -- an index of a well-formed operand is counted from the front
      subst hdc
      have hi : (d : Int) = i := locate_eq_ok_of_nonneg hd ho
      rw [hi]
      exact Or.inr rfl
    · exact Or.inl (m.cells.get_set_of_ne _ hdc)

/-! ### Pushes -/

/-- A cell is as it was, or it is the one that was pushed to. -/
theorem pushed_cell_cases (m : Machine) (v : Int) {c d : Nat}
    (hd : m.locate .releasedWrite (m.registers.sp - 1) = .ok d) :
    (m.pushed v d).cells.get c = m.cells.get c ∨
      (c : Int) = (m.registers.sp - 1) % m.cellCount ∧
        (m.pushed v d).cells.get c = Word.wrap v := by
  by_cases hdc : d = c
  · subst hdc
    exact Or.inr ⟨(locate_eq_ok hd).1, m.cells.get_set_self d _⟩
  · exact Or.inl (m.cells.get_set_of_ne _ hdc)

/-! ### Effects, one part of the machine at a time -/

/-- What is printed comes after what was printed before, on a line of its own. -/
theorem output_print (m : Machine) (v : Int) :
    ({ m with printed := m.printed.push v } : Machine).output
      = m.output ++ (toString v ++ "\n") := by
  change linesOf (m.printed.push v).toList = linesOf m.printed.toList ++ _
  rw [Array.toList_push]
  unfold linesOf
  rw [List.map_append, String.join_append]
  simp [String.join]

/-- No instruction changes the block or the region of the stack. -/
theorem Effect.block_eq (h : m.Effect ins m') :
    m'.cellCount = m.cellCount ∧ m'.checked = m.checked ∧ m'.stackSize = m.stackSize ∧
      m'.released = m.released := by
  cases h with
  | write hstack ho hw => exact hw.rest.1
  | pop hop hc ho hw => exact hw.rest.1
  | _ => exact ⟨rfl, rfl, rfl, rfl⟩

/-- Only a comparison changes the flags. -/
theorem Effect.flags_eq (h : m.Effect ins m') : m'.flags = m.flags ∨ ins.opcode = .cmp := by
  cases h with
  | write hstack ho hw => exact Or.inl hw.rest.2.1
  | pop hop hc ho hw => exact Or.inl hw.rest.2.1
  | flags a b hop => exact Or.inr hop
  | _ => exact Or.inl rfl

/-- Only a modulo changes the remainder. -/
theorem Effect.remainder_eq (h : m.Effect ins m') :
    m'.remainder = m.remainder ∨ ins.opcode = .mod := by
  cases h with
  | write hstack ho hw => exact Or.inl hw.rest.2.2.1
  | pop hop hc ho hw => exact Or.inl hw.rest.2.2.1
  | remainder r hop => exact Or.inr hop
  | _ => exact Or.inl rfl

/-- The output grows by one line exactly when the instruction is a print. -/
theorem Effect.output_eq (h : m.Effect ins m') :
    if ins.opcode = .prn then ∃ v : Int, m'.output = m.output ++ (toString v ++ "\n")
    else m'.output = m.output := by
  have hsame : m'.printed = m.printed → m'.output = m.output := by
    intro hprinted
    unfold output
    rw [hprinted]
  have hwrites : ∀ {o : Operand}, ins.Writes o → ins.opcode ≠ .prn := by
    intro o ho hop
    have htarget := ho.head.1
    rw [hop] at htarget
    cases htarget
  cases h with
  | print v hop =>
    rw [if_pos hop]
    exact ⟨v, output_print m v⟩
  | write hstack ho hw =>
    rw [if_neg (hwrites ho)]
    exact hsame hw.rest.2.2.2
  | pop hop hc ho hw =>
    rw [if_neg (hwrites ho)]
    exact hsame hw.rest.2.2.2
  | idle hop =>
    have hne : ins.opcode ≠ .prn := by
      intro hprn
      rw [hprn] at hop
      rcases hop with h | h | h | h <;> cases h
    rw [if_neg hne]
  | push v hop hc =>
    rw [if_neg (by rcases hop with h | h <;> rw [h] <;> decide)]
    rfl
  | jump t hop =>
    have hne : ins.opcode ≠ .prn := by
      intro hprn
      rw [hprn] at hop
      rcases hop with h | h <;> cases h
    rw [if_neg hne]
    rfl
  | remainder r hop | flags a b hop | call t hop hc | ret hop hc =>
    rw [if_neg (by rw [hop]; decide)]
    rfl

/-- **A register changes** only as the target of an instruction, as the stack pointer or as the
instruction pointer. -/
theorem Effect.register_cases (h : m.Effect ins m') (hins : ins.WellFormed) (s : Slot) :
    m'.registers.get s = m.registers.get s ∨ ins.Writes (.ofSlot s) ∨
      s = Slot.sp ∧ ins.opcode.stackDelta ≠ 0 ∨ s = Slot.ip ∧ m.Transfers ins.opcode := by
  have hwrote : ∀ {o : Operand} {m₁ m₂ : Machine}, ins.Writes o → m₁.Wrote o m₂ →
      m₂.registers.get s = m₁.registers.get s ∨ ins.Writes (.ofSlot s) := by
    intro o m₁ m₂ ho hw
    rcases hw.register_cases (hins.target ho) s with hs | rfl
    · exact Or.inl hs
    · exact Or.inr ho
  -- the two registers that have a role are looked at first
  have hpointer : ∀ (m₁ : Machine) (cell : Int), ins.opcode.stackDelta ≠ 0 →
      (m₁.setSp cell).registers.get s = m₁.registers.get s ∨
        s = Slot.sp ∧ ins.opcode.stackDelta ≠ 0 := by
    intro m₁ cell hdelta
    by_cases hs : s = Slot.sp
    · exact Or.inr ⟨hs, hdelta⟩
    · exact Or.inl (m₁.get_setSp cell hs)
  have hindex : ∀ (m₁ : Machine) (index : Int), m.Transfers ins.opcode →
      (m₁.setIp index).registers.get s = m₁.registers.get s ∨
        s = Slot.ip ∧ m.Transfers ins.opcode := by
    intro m₁ index htransfer
    by_cases hs : s = Slot.ip
    · exact Or.inr ⟨hs, htransfer⟩
    · exact Or.inl (m₁.get_setIp index hs)
  cases h with
  | idle hop => exact Or.inl rfl
  | write hstack ho hw => exact (hwrote ho hw).imp_right Or.inl
  | push v hop hc =>
    have hdelta : ins.opcode.stackDelta ≠ 0 := by rw [Opcode.stackDelta_push hop]; decide
    exact (hpointer m _ hdelta).imp_right fun h => Or.inr (Or.inl h)
  | pop hop hc ho hw =>
    have hdelta : ins.opcode.stackDelta ≠ 0 := by rw [Opcode.stackDelta_pop hop]; decide
    rcases hwrote ho hw with hs | hs
    · rw [hs]
      exact (hpointer m _ hdelta).imp_right fun h => Or.inr (Or.inl h)
    · exact Or.inr (Or.inl hs)
  | remainder r hop => exact Or.inl rfl
  | flags a b hop => exact Or.inl rfl
  | jump t hop =>
    have htransfer : m.Transfers ins.opcode := hop.imp_right fun h => Or.inr (Or.inr h)
    exact (hindex m _ htransfer).imp_right fun h => Or.inr (Or.inr h)
  | call t hop hc =>
    rcases hindex (m.pushed m.registers.ip _) (t - 1) (Or.inr (Or.inl hop)) with hs | hs
    · rw [hs]
      exact (hpointer m _ (by rw [hop]; decide)).imp_right fun h => Or.inr (Or.inl h)
    · exact Or.inr (Or.inr (Or.inr hs))
  | ret hop hc =>
    rcases hindex (m.setSp _) (m.cells.get _) (Or.inr (Or.inr (Or.inl hop))) with hs | hs
    · rw [hs]
      exact (hpointer m _ (by rw [hop]; decide)).imp_right fun h => Or.inr (Or.inl h)
    · exact Or.inr (Or.inr (Or.inr hs))
  | print v hop => exact Or.inl rfl

/-- **A cell changes** only as the target of an instruction or as the cell that was pushed to. -/
theorem Effect.cell_cases (h : m.Effect ins m') (hins : ins.WellFormed) (c : Nat) :
    m'.cells.get c = m.cells.get c ∨ ins.Writes (.cell c) ∨
      ins.opcode.stackDelta = 1 ∧ (c : Int) = m'.registers.sp % m.cellCount := by
  have hwrote : ∀ {o : Operand} {m₁ m₂ : Machine}, ins.Writes o → m₁.Wrote o m₂ →
      m₂.cells.get c = m₁.cells.get c ∨ ins.Writes (.cell c) := by
    intro o m₁ m₂ ho hw
    rcases hw.cell_cases (hins.target ho) c with hc | rfl
    · exact Or.inl hc
    · exact Or.inr ho
  cases h with
  | write hstack ho hw => exact (hwrote ho hw).imp_right Or.inl
  | pop hop hc ho hw => exact (hwrote ho hw).imp_right Or.inl
  | push v hop hd =>
    have hdelta := Opcode.stackDelta_push hop
    rw [sp_pushed]
    exact (m.pushed_cell_cases v hd).imp_right fun h => Or.inr ⟨hdelta, h.1⟩
  | call t hop hd =>
    have hdelta : ins.opcode.stackDelta = 1 := by rw [hop]; rfl
    rw [sp_setIp, sp_pushed]
    exact (m.pushed_cell_cases m.registers.ip hd).imp_right fun h => Or.inr ⟨hdelta, h.1⟩
  | _ => exact Or.inl rfl

/-- **One cell changes at most.** What is written and what is pushed to exclude each other. -/
theorem Effect.one_cell (h : m.Effect ins m') (hins : ins.WellFormed) {c d : Nat}
    (hc : m'.cells.get c ≠ m.cells.get c) (hd : m'.cells.get d ≠ m.cells.get d) : c = d := by
  rcases (h.cell_cases hins c).resolve_left hc with hcw | ⟨hdelta, hcsp⟩
  · rcases (h.cell_cases hins d).resolve_left hd with hdw | ⟨hdelta, -⟩
    · have hcd : Operand.cell (c : Int) = .cell (d : Int) := hcw.unique hdw
      exact Int.ofNat.inj (Operand.cell.inj hcd)
    · exact absurd hdelta hcw.stackDelta_ne
  · rcases (h.cell_cases hins d).resolve_left hd with hdw | ⟨-, hdsp⟩
    · exact absurd hdelta hdw.stackDelta_ne
    · exact Int.ofNat.inj (hcsp.trans hdsp.symm)

/-- **A successful instruction** touches only what its opcode may touch. -/
theorem Effect.framed (h : m.Effect ins m') (hins : ins.WellFormed) : Framed ins m m' where
  block := h.block_eq
  flags := h.flags_eq
  remainder := h.remainder_eq
  output := h.output_eq
  register := h.register_cases hins
  cell := h.cell_cases hins
  one_cell _ _ := h.one_cell hins

/-! ### Instructions that fail -/

/-- Only the stack pointer has moved. -/
theorem faultFramed_setSp {cell : Int}
    (hop : ins.opcode ∈ [Opcode.push, .pushf, .call, .pop, .popf]) :
    FaultFramed ins fault m (m.setSp cell) where
  block := ⟨rfl, rfl, rfl, rfl⟩
  flags := rfl
  remainder := rfl
  output := rfl
  register _ hs := m.get_setSp cell hs
  pointer := Or.inr hop
  cell _ := Or.inl rfl

/-- **A failing instruction** touches the stack pointer at most, and a call its cell. -/
theorem Spoilt.framed (h : m.Spoilt ins fault m') : FaultFramed ins fault m m' := by
  cases h with
  | nothing =>
    exact
      { block := ⟨rfl, rfl, rfl, rfl⟩
        flags := rfl
        remainder := rfl
        output := rfl
        register := fun _ _ => rfl
        pointer := Or.inl rfl
        cell := fun _ => Or.inl rfl }
  | push hop hc =>
    have hpush : ∀ opcode : Opcode, opcode.stackDelta = 1 →
        opcode ∈ [Opcode.push, .pushf, .call, .pop, .popf] := by
      intro opcode
      cases opcode <;> decide
    exact faultFramed_setSp (hpush _ hop)
  | pop hop hstore => exact faultFramed_setSp (by rcases hop with h | h <;> rw [h] <;> decide)
  | call hop ho hc hload =>
    have hmoved : FaultFramed ins fault m (m.setSp (m.registers.sp - 1)) :=
      faultFramed_setSp (by rw [hop]; decide)
    refine { hmoved with cell := fun d => ?_ }
    rw [sp_pushed]
    exact (m.pushed_cell_cases m.registers.ip hc).imp_right fun h => ⟨hop, h.1, h.2, _, ho, hload⟩

end Machine

/-! ### Steps -/

open Machine

/-- **A step touches only what its opcode may touch**, on every machine and also when it fails. A
step that is refused touches nothing, at the end of the program, outside of it or at an instruction
whose line cannot be written. -/
theorem Session.step_touches_only {p : Program} (hp : p.validate = .ok ()) (m : Machine)
    (w : Monitor) :
    match Session.step p ⟨m, w⟩ with
    | .ok () s => ∃ ins, p.fetch m.registers.ip = .ok ins ∧ Framed ins m s.machine
    | .error fault s => s.machine = m ∨
        ∃ ins, p.fetch m.registers.ip = .ok ins ∧ FaultFramed ins fault m s.machine := by
  cases hf : p.fetch m.registers.ip with
  | error fault =>
    have hstep : Session.step p ⟨m, w⟩ = .error fault ⟨m, w⟩ := by simp only [Session.step, hf]
    rw [hstep]
    exact Or.inl rfl
  | ok ins =>
    by_cases hstop : ins.opcode = .stop
    · have hstep : Session.step p ⟨m, w⟩ = .error (.atEnd m.registers.ip) ⟨m, w⟩ := by
        simp only [Session.step, hf, if_pos hstop]
      rw [hstep]
      exact Or.inl rfl
    by_cases hw : w.balks m.registers.ip ins m.registers = true
    · have hstep : Session.step p ⟨m, w⟩ = .error .unwritable ⟨m, w⟩ := by
        simp only [Session.step, hf, if_neg hstop, if_pos hw]
      rw [hstep]
      exact Or.inl rfl
    · have hins := Program.wellFormed_of_validate hp (mem_of_fetch hf) hstop
      have hends := execute_ends m ins
      simp only [Session.step, hf, if_neg hstop, if_neg hw]
      cases hx : execute ins.opcode ins.operands m with
      | ok a m' => exact ⟨ins, rfl, (hends.ok hx).framed hins⟩
      | error fault m' => exact Or.inr ⟨ins, rfl, (hends.error hx).framed⟩

/-- A program that calls what a cell beyond its block refers to. -/
def lostCall : Program :=
  .make #[⟨.nop, []⟩, ⟨.call, [.cell 99]⟩] 1 .empty .empty

/-- A machine of sixteen cells that has come to the call. -/
def lostCaller : Machine :=
  (({ cellCount := 16, checked := false } : Machine).createStack 16).setIp 1

/-- The call fails after it has pushed its index; nothing else has changed. -/
theorem lostCall_touches_only :
    ∃ s, Session.step lostCall ⟨lostCaller, {}⟩ = .error .noSuchCell s ∧
      lostCaller.cells.get 15 = 0 ∧ s.machine.cells.get 15 = 1 ∧
      FaultFramed ⟨.call, [.cell 99]⟩ .noSuchCell lostCaller s.machine := by
  obtain ⟨s, hs, hcell⟩ : ∃ s, Session.step lostCall ⟨lostCaller, {}⟩ = .error .noSuchCell s ∧
      s.machine.cells.get 15 = 1 := ⟨_, rfl, by decide⟩
  have hfetch : lostCall.fetch lostCaller.registers.ip = .ok ⟨.call, [.cell 99]⟩ := rfl
  have hstep := Session.step_touches_only (p := lostCall) rfl lostCaller {}
  rw [hs] at hstep
  refine ⟨s, hs, by decide, hcell, ?_⟩
  rcases hstep with hsame | ⟨ins, hins, hframed⟩
  · rw [hsame] at hcell
    exact absurd hcell (by decide)
  · obtain rfl := Except.ok.inj (hfetch.symm.trans hins)
    exact hframed

end CellMachine
