import CellMachine.Proofs.SoundMachine

/-!
# The effects of an instruction

`Discipline` says which invariants all instructions keep. Here it is said what each of them does:
the machine that an instruction leaves is one of ten, and the opcode tells which
(`Machine.Effect`). An instruction that fails leaves the machine as it was, with three exceptions
(`Machine.Spoilt`): a push whose cell cannot be written has moved the stack pointer, so has a pop
whose target cannot be written, and a call whose target cannot be read has pushed its index.

* `Machine.execute_ends` is the one case analysis over all opcodes; every instruction on every
  machine ends in an effect or spoilt.
* `Machine.Effect.sp_eq` is the balance of the stack: an instruction that does not write the stack
  pointer moves it by `Opcode.stackDelta`.
-/

namespace CellMachine

/-- The number of words that an instruction adds to the stack. -/
def Opcode.stackDelta : Opcode → Int
  | .push | .pushf | .call => 1
  | .pop | .popf | .ret => -1
  | _ => 0

/-- Both ways to push a number of the program add one word. -/
theorem Opcode.stackDelta_push {opcode : Opcode} (h : opcode = .push ∨ opcode = .pushf) :
    opcode.stackDelta = 1 := by
  rcases h with rfl | rfl <;> rfl

/-- Both ways to pop into a target take one word away. -/
theorem Opcode.stackDelta_pop {opcode : Opcode} (h : opcode = .pop ∨ opcode = .popf) :
    opcode.stackDelta = -1 := by
  rcases h with rfl | rfl <;> rfl

/-- A register as an operand. -/
def Operand.ofSlot (s : Slot) : Operand := .register (s.val : Nat)

/-- A first operand that is marked as a target is written. -/
theorem Instruction.writes_head {ins : Instruction} {kinds : List OperandKind} {o : Operand}
    {os : List Operand} (hkinds : ins.opcode.signature = .target :: kinds)
    (hos : ins.operands = o :: os) : ins.Writes o := by
  unfold Instruction.Writes
  rw [hkinds, hos, List.zip_cons_cons]
  exact List.mem_cons_self

/-- No opcode marks a later operand as a target. -/
theorem Opcode.target_notMem_tail (opcode : Opcode) :
    OperandKind.target ∉ opcode.signature.tail := by
  cases opcode <;> decide

/-- **Only the first operand is written.** -/
theorem Instruction.Writes.head {ins : Instruction} {o : Operand} (h : ins.Writes o) :
    ins.opcode.signature.head? = some .target ∧ ins.operands.head? = some o := by
  have htail := ins.opcode.target_notMem_tail
  unfold Instruction.Writes at h
  -- kinds and operands are walked through side by side
  cases hkinds : ins.opcode.signature with
  | nil =>
    rw [hkinds, List.zip_nil_left] at h
    cases h
  | cons kind kinds =>
    cases hos : ins.operands with
    | nil =>
      rw [hos, List.zip_nil_right] at h
      cases h
    | cons o' os =>
      rw [hkinds, hos, List.zip_cons_cons] at h
      rcases List.mem_cons.mp h with heq | hmem
      · obtain ⟨rfl, rfl⟩ := Prod.mk.inj heq
        exact ⟨rfl, rfl⟩
      · rw [hkinds] at htail
        exact absurd (List.of_mem_zip hmem).1 htail

/-- An instruction writes one operand at most. -/
theorem Instruction.Writes.unique {ins : Instruction} {o o' : Operand} (h : ins.Writes o)
    (h' : ins.Writes o') : o = o' :=
  Option.some.inj (h.head.2.symm.trans h'.head.2)

/-- An instruction that pushes writes no operand. -/
theorem Instruction.Writes.stackDelta_ne {ins : Instruction} {o : Operand} (h : ins.Writes o) :
    ins.opcode.stackDelta ≠ 1 := by
  -- no opcode does both, as its signature and its delta tell
  have hpush : ∀ opcode : Opcode, opcode.signature.head? = some .target → opcode.stackDelta ≠ 1 := by
    intro opcode
    cases opcode <;> decide
  exact hpush _ h.head.1

/-- What a well-formed instruction writes is well-formed as a target. -/
theorem Instruction.WellFormed.target {ins : Instruction} (h : ins.WellFormed) {o : Operand}
    (ho : ins.Writes o) : Operand.WellFormed .target o :=
  h.operands _ ho

namespace Machine

variable {m m' : Machine} {ins : Instruction} {o : Operand} {fault : Fault}

/-! ### Which cell, which register -/

/-- A register that exists is the operand of its slot. -/
theorem register_eq_ofSlot {i : Int} {s : Slot} {missing : Fault}
    (hi : 0 ≤ i ∧ i < slotCount) (hs : slot missing i = .ok s) :
    Operand.register i = Operand.ofSlot s := by
  obtain ⟨t, ht, hslot⟩ := slot_of_inRange hi missing
  obtain rfl : t = s := Except.ok.inj (hslot.symm.trans hs)
  unfold Operand.ofSlot
  rw [ht, Int.toNat_of_nonneg hi.1]

/-! ### The stack pointer and the instruction pointer -/

/-- Moving the stack pointer leaves the other registers. -/
theorem get_setSp {s : Slot} (m : Machine) (cell : Int) (h : s ≠ Slot.sp) :
    (m.setSp cell).registers.get s = m.registers.get s :=
  m.registers.get_set_of_ne _ (Ne.symm h)

/-- Setting the instruction pointer leaves the other registers. -/
theorem get_setIp {s : Slot} (m : Machine) (index : Int) (h : s ≠ Slot.ip) :
    (m.setIp index).registers.get s = m.registers.get s :=
  m.registers.get_set_of_ne _ (Ne.symm h)

@[simp] theorem sp_setSp (m : Machine) (cell : Int) : (m.setSp cell).registers.sp = cell :=
  congrArg Value.toInt (m.registers.get_set_self Slot.sp _)

@[simp] theorem sp_setIp (m : Machine) (index : Int) :
    (m.setIp index).registers.sp = m.registers.sp :=
  congrArg Value.toInt (m.get_setIp index (by decide))

/-- The machine with a number on its stack, in a given cell. -/
def pushed (m : Machine) (v : Int) (c : Nat) : Machine :=
  { m.setSp (m.registers.sp - 1) with cells := m.cells.set c (Word.wrap v) }

@[simp] theorem sp_pushed (m : Machine) (v : Int) (c : Nat) :
    (m.pushed v c).registers.sp = m.registers.sp - 1 :=
  sp_setSp m _

/-! ### Writing through an operand -/

/-- Something was written through an operand, and nothing else has changed. -/
inductive Wrote (m : Machine) : Operand → Machine → Prop
  | register {i : Int} {s : Slot} (v : Value) (hs : slot .noSuchTarget i = .ok s) :
    Wrote m (.register i) { m with registers := m.registers.set s v }
  | cell {i : Int} {c : Nat} (v : Int) (hc : m.locate .releasedWrite i = .ok c) :
    Wrote m (.cell i) { m with cells := m.cells.set c (Word.wrap v) }

/-- A number that was stored was written. -/
theorem wrote_of_stored {v : Int} (h : m.stored o v = .ok m') : m.Wrote o m' := by
  cases o with
  | register i =>
    obtain ⟨s, hs, rfl⟩ := registerSet_eq_ok h
    exact .register _ hs
  | cell i =>
    obtain ⟨c, hc, rfl⟩ := cellSet_eq_ok h
    exact .cell v hc
  | immediate n => cases h
  | label name => cases h

/-- A value that was stored was written; outside the registers it is stored as a number. -/
theorem wrote_of_storedTagged {v : Value} (h : m.storedTagged o v = .ok m') : m.Wrote o m' := by
  cases o with
  | register i =>
    obtain ⟨s, hs, rfl⟩ := registerSet_eq_ok h
    exact .register v hs
  | cell i => exact wrote_of_stored (o := .cell i) h
  | immediate n => cases h
  | label name => cases h

/-! ### Effects -/

/-- Whether a conditional jump is taken. -/
def taken? (m : Machine) (opcode : Opcode) : Option Bool :=
  (jumpCondition opcode).map fun condition => condition m.flags

/-- **What an instruction does** when it succeeds. -/
inductive Effect (m : Machine) (ins : Instruction) : Machine → Prop
  | idle (hop : ins.opcode = .stop ∨ ins.opcode = .nop ∨ ins.opcode = .int ∨
      m.taken? ins.opcode = some false) : Effect m ins m
  | write {o : Operand} {m' : Machine} (hstack : ins.opcode.stackDelta = 0) (ho : ins.Writes o)
      (hw : m.Wrote o m') : Effect m ins m'
  | push {c : Nat} (v : Int) (hop : ins.opcode = .push ∨ ins.opcode = .pushf)
      (hc : m.locate .releasedWrite (m.registers.sp - 1) = .ok c) : Effect m ins (m.pushed v c)
  /-- The stack pointer moves before the target is written. -/
  | pop {c : Nat} {o : Operand} {m' : Machine} (hop : ins.opcode = .pop ∨ ins.opcode = .popf)
      (hc : m.locate .releasedRead m.registers.sp = .ok c) (ho : ins.Writes o)
      (hw : (m.setSp (m.registers.sp + 1)).Wrote o m') : Effect m ins m'
  | remainder (r : Int) (hop : ins.opcode = .mod) : Effect m ins { m with remainder := r }
  | flags (a b : Int) (hop : ins.opcode = .cmp) :
      Effect m ins { m with flags := Word.compare a b }
  | jump (t : Int) (hop : ins.opcode = .jmp ∨ m.taken? ins.opcode = some true) :
      Effect m ins (m.setIp (t - 1))
  | call {c : Nat} (t : Int) (hop : ins.opcode = .call)
      (hc : m.locate .releasedWrite (m.registers.sp - 1) = .ok c) :
      Effect m ins ((m.pushed m.registers.ip c).setIp (t - 1))
  | ret {c : Nat} (hop : ins.opcode = .ret)
      (hc : m.locate .releasedRead m.registers.sp = .ok c) :
      Effect m ins ((m.setSp (m.registers.sp + 1)).setIp (m.cells.get c))
  | print (v : Int) (hop : ins.opcode = .prn) :
      Effect m ins { m with printed := m.printed.push v }

/-- **What an instruction has done** by the time it fails. -/
inductive Spoilt (m : Machine) (ins : Instruction) (fault : Fault) : Machine → Prop
  | nothing : Spoilt m ins fault m
  /-- The cell could not be written. -/
  | push (hop : ins.opcode.stackDelta = 1)
      (hc : m.locate .releasedWrite (m.registers.sp - 1) = .error fault) :
      Spoilt m ins fault (m.setSp (m.registers.sp - 1))
  /-- The target could not be written. -/
  | pop {o : Operand} {v : Int} (hop : ins.opcode = .pop ∨ ins.opcode = .popf)
      (hstore : (m.setSp (m.registers.sp + 1)).stored o v = .error fault) :
      Spoilt m ins fault (m.setSp (m.registers.sp + 1))
  /-- The target could not be read. -/
  | call {c : Nat} {o : Operand} (hop : ins.opcode = .call) (ho : ins.operands = [o])
      (hc : m.locate .releasedWrite (m.registers.sp - 1) = .ok c)
      (hload : (m.pushed m.registers.ip c).valueOf o = .error fault) :
      Spoilt m ins fault (m.pushed m.registers.ip c)

/-- An action ends in an effect of an instruction, or spoilt by it. -/
def Acts (m : Machine) (ins : Instruction) (x : Exec Unit) : Prop :=
  Exec.Ends x m (fun _ => m.Effect ins) (m.Spoilt ins)

open Exec

/-- An operand that cannot be read spoils nothing, so only what follows matters. -/
theorem acts_load_bind {f : Int → Exec Unit} (hf : ∀ v, m.Acts ins (f v)) :
    m.Acts ins (load o >>= f) :=
  ends_load_bind (fun _ _ => .nothing) fun v _ => hf v

/-- The wrong number of operands spoils nothing. -/
theorem acts_withOne {action : Operand → Exec Unit}
    (h : ∀ o, ins.operands = [o] → m.Acts ins (action o)) :
    m.Acts ins (withOne ins.operands action) := by
  unfold withOne
  split
  · next o ho => exact h o ho
  · exact Spoilt.nothing

theorem acts_withTwo {action : Operand → Operand → Exec Unit}
    (h : ∀ a b, ins.operands = [a, b] → m.Acts ins (action a b)) :
    m.Acts ins (withTwo ins.operands action) := by
  unfold withTwo
  split
  · next a b hab => exact h a b hab
  · exact Spoilt.nothing

/-! The instructions that write their first operand. -/

/-- A number is written to the first operand. -/
theorem acts_store (hstack : ins.opcode.stackDelta = 0) (ho : ins.Writes o) (v : Int) :
    m.Acts ins (store o v) :=
  ends_store (fun _ _ => .nothing) fun _ h => .write hstack ho (wrote_of_stored h)

/-- A function of an operand is written to it. -/
theorem acts_unary (hstack : ins.opcode.stackDelta = 0) (ho : ins.Writes o) (f : Int → Int) :
    m.Acts ins (unary f o) :=
  acts_load_bind fun _ => acts_store hstack ho _

/-- A function of two operands is written to the first. -/
theorem acts_binary (hstack : ins.opcode.stackDelta = 0) (ho : ins.Writes o) (source : Operand)
    (f : Int → Int → Int) : m.Acts ins (binary f o source) :=
  acts_load_bind fun _ => acts_load_bind fun _ => acts_store hstack ho _

/-- A divisor that is zero is noticed before anything is written. -/
theorem acts_divide (hstack : ins.opcode.stackDelta = 0) (ho : ins.Writes o) (source : Operand) :
    m.Acts ins (divide o source) := by
  refine acts_load_bind fun a => acts_load_bind fun b => ?_
  cases Word.div? a b with
  | some q => exact acts_store hstack ho q
  | none => exact Spoilt.nothing

/-- A value is written to the first operand, as it is if that is a register. -/
theorem acts_move (hstack : ins.opcode.stackDelta = 0) (ho : ins.Writes o) (source : Operand) :
    m.Acts ins (move o source) := by
  have hstore : ∀ v, m.Acts ins (storeValue o v) := by
    intro v
    unfold Acts Ends
    rw [storeValue_eq]
    cases hs : m.storedTagged o v with
    | error fault => exact Spoilt.nothing
    | ok m' => exact Effect.write hstack ho (wrote_of_storedTagged hs)
  unfold Acts Ends move
  rw [loadValue_bind]
  cases m.taggedOf source with
  | error fault => exact Spoilt.nothing
  | ok v => exact hstore v

/-! The instructions that write something else. -/

/-- The remainder is kept by the machine, not written to an operand. -/
theorem acts_modulo (hop : ins.opcode = .mod) (first second : Operand) :
    m.Acts ins (modulo first second) := by
  refine acts_load_bind fun a => acts_load_bind fun b => ?_
  cases Word.mod? a b with
  | some r => exact Effect.remainder r hop
  | none => exact Spoilt.nothing

/-- A comparison sets the flags only. -/
theorem acts_compareOperands (hop : ins.opcode = .cmp) (first second : Operand) :
    m.Acts ins (compareOperands first second) :=
  acts_load_bind fun a => acts_load_bind fun b => Effect.flags a b hop

/-- The instruction pointer is set one before the target. -/
theorem acts_transfer (hop : ins.opcode = .jmp ∨ m.taken? ins.opcode = some true)
    (target : Operand) : m.Acts ins (transfer target) :=
  acts_load_bind fun t => Effect.jump t hop

/-- A conditional jump is taken or idle, as the flags tell. -/
theorem acts_transferIf {condition : Int → Bool} (hop : jumpCondition ins.opcode = some condition)
    (target : Operand) : m.Acts ins (transferIf condition target) := by
  have htaken : m.taken? ins.opcode = some (condition m.flags) := by
    unfold taken?
    rw [hop]
    rfl
  apply ends_get_bind
  -- the condition is tested on the flags of the machine as it is
  split
  · next hc =>
    rw [hc] at htaken
    exact acts_transfer (Or.inr htaken) target
  · next hc =>
    rw [Bool.eq_false_iff.mpr hc] at htaken
    exact Effect.idle (Or.inr (Or.inr (Or.inr htaken)))

/-- A number with too many digits is noticed before anything is printed. -/
theorem acts_print (hop : ins.opcode = .prn) (source : Operand) : m.Acts ins (print source) := by
  refine acts_load_bind fun v => ?_
  cases Text.isWritable v with
  | true => exact Effect.print v hop
  | false => exact Spoilt.nothing

/-! The instructions of the stack. -/

/-- A push fails before the stack pointer has moved, at the check of the region, or after that. -/
theorem acts_push (hop : ins.opcode = .push ∨ ins.opcode = .pushf) (v : Int) :
    m.Acts ins (push v) :=
  ends_push (fun _ _ => .nothing) (fun _ hc => .push (Opcode.stackDelta_push hop) hc)
    fun _ hc => .push v hop hc

/-- A pop whose target cannot be written has moved the stack pointer. -/
theorem acts_popOperand (hop : ins.opcode = .pop ∨ ins.opcode = .popf) (ho : ins.Writes o) :
    m.Acts ins (popOperand o) := by
  -- a pop that succeeds has moved the stack pointer, and the target is written after that
  have hpop : Ends Machine.pop m
      (fun _ m' => ∃ c, m.locate .releasedRead m.registers.sp = .ok c ∧
        m' = m.setSp (m.registers.sp + 1)) (m.Spoilt ins) :=
    ends_pop (fun _ _ => .nothing) (fun _ _ => .nothing) fun c hc => ⟨c, hc, rfl⟩
  refine hpop.bind fun v m₁ h => ?_
  obtain ⟨c, hc, rfl⟩ := h
  exact ends_store (fun _ h => .pop hop h) fun m' h => .pop hop hc ho (wrote_of_stored h)

/-- A call whose target cannot be read has pushed its index. -/
theorem acts_callTarget (hop : ins.opcode = .call) (ho : ins.operands = [o]) :
    m.Acts ins (callTarget o) := by
  have hdelta : ins.opcode.stackDelta = 1 := by rw [hop]; rfl
  have hpush : Ends (Machine.push m.registers.ip) m
      (fun _ m' => ∃ c, m.locate .releasedWrite (m.registers.sp - 1) = .ok c ∧
        m' = m.pushed m.registers.ip c) (m.Spoilt ins) :=
    ends_push (fun _ _ => .nothing) (fun _ hc => .push hdelta hc) fun c hc => ⟨c, hc, rfl⟩
  apply ends_get_bind
  refine hpush.bind fun _ m₁ h => ?_
  obtain ⟨c, hc, rfl⟩ := h
  -- the target is read from the machine that the push has left
  exact ends_load_bind (fun _ hload => .call hop ho hc hload) fun t _ => Effect.call t hop hc

/-- A return sets the instruction pointer to what it has popped. -/
theorem acts_returnToCaller (hop : ins.opcode = .ret) : m.Acts ins returnToCaller := by
  have hpop : Ends Machine.pop m
      (fun v m' => ∃ c, m.locate .releasedRead m.registers.sp = .ok c ∧ v = m.cells.get c ∧
        m' = m.setSp (m.registers.sp + 1)) (m.Spoilt ins) :=
    ends_pop (fun _ _ => .nothing) (fun _ _ => .nothing) fun c hc => ⟨c, hc, rfl, rfl⟩
  refine hpop.bind fun v m₁ h => ?_
  obtain ⟨c, hc, rfl, rfl⟩ := h
  exact Effect.ret hop hc

/-- **One instruction.** Whatever it is and whatever the machine, an instruction ends in one of its
effects or spoilt. -/
theorem execute_ends (m : Machine) (ins : Instruction) :
    m.Acts ins (execute ins.opcode ins.operands) := by
  -- the operands stay those of the instruction, since its effects refer to them
  generalize hop : ins.opcode = opcode
  cases opcode with
  | stop => exact Effect.idle (Or.inl hop)
  | nop => exact Effect.idle (Or.inr (Or.inl hop))
  | int => exact Effect.idle (Or.inr (Or.inr (Or.inl hop)))
  | mov =>
    exact acts_withTwo fun t s h =>
      acts_move (by rw [hop]; rfl) (Instruction.writes_head (by rw [hop]; rfl) h) s
  | push =>
    exact acts_withOne fun o _ => acts_load_bind fun v => acts_push (Or.inl hop) v
  | pop =>
    exact acts_withOne fun o h =>
      acts_popOperand (Or.inl hop) (Instruction.writes_head (by rw [hop]; rfl) h)
  | popf =>
    exact acts_withOne fun o h =>
      acts_popOperand (Or.inr hop) (Instruction.writes_head (by rw [hop]; rfl) h)
  | pushf => exact ends_get_bind (acts_push (Or.inr hop) m.flags)
  | inc | dec | not =>
    exact acts_withOne fun t h =>
      acts_unary (by rw [hop]; rfl) (Instruction.writes_head (by rw [hop]; rfl) h) _
  | add | sub | mul | xor | or | and | shl | shr =>
    exact acts_withTwo fun t s h =>
      acts_binary (by rw [hop]; rfl) (Instruction.writes_head (by rw [hop]; rfl) h) s _
  | div =>
    exact acts_withTwo fun t s h =>
      acts_divide (by rw [hop]; rfl) (Instruction.writes_head (by rw [hop]; rfl) h) s
  | mod => exact acts_withTwo fun a b _ => acts_modulo hop a b
  | rem =>
    exact acts_withOne fun t h =>
      ends_get_bind (acts_store (by rw [hop]; rfl)
        (Instruction.writes_head (by rw [hop]; rfl) h) m.remainder)
  | cmp => exact acts_withTwo fun a b _ => acts_compareOperands hop a b
  | jmp => exact acts_withOne fun t _ => acts_transfer (Or.inl hop) t
  | call => exact acts_withOne fun t h => acts_callTarget hop h
  | ret => exact acts_returnToCaller hop
  | je | jne | jg | jge | jl | jle =>
    exact acts_withOne fun t _ => acts_transferIf (by rw [hop]; rfl) t
  | prn => exact acts_withOne fun s _ => acts_print hop s

/-! ### The balance of the stack -/

/-- A write through another operand leaves a register as it was. -/
theorem Wrote.get_of_ne (hw : m.Wrote o m') (ho : Operand.WellFormed .target o) {s : Slot}
    (hne : o ≠ .ofSlot s) : m'.registers.get s = m.registers.get s := by
  cases hw with
  | register v hs =>
    have ht := register_eq_ofSlot ho hs
    refine m.registers.get_set_of_ne v ?_
    rintro rfl
    exact hne ht
  | cell v hc => rfl

/-- A conditional jump leaves the stack alone. -/
theorem Effect.stackDelta_of_taken {b : Bool} {opcode : Opcode}
    (h : m.taken? opcode = some b) : opcode.stackDelta = 0 := by
  -- the opcodes of the stack have no condition
  cases opcode <;> first | rfl | cases h

/-- **The balance of the stack.** An instruction that does not write the stack pointer moves it by
the words that it adds. -/
theorem Effect.sp_eq (h : m.Effect ins m') (hins : ins.WellFormed)
    (hsp : ¬ ins.Writes (.ofSlot Slot.sp)) :
    m'.registers.sp = m.registers.sp - ins.opcode.stackDelta := by
  -- what is written is another operand, whether before or after the stack pointer has moved
  have hwrote : ∀ {o : Operand} {m₁ m₂ : Machine}, ins.Writes o → m₁.Wrote o m₂ →
      m₂.registers.sp = m₁.registers.sp := by
    intro o m₁ m₂ ho hw
    refine congrArg Value.toInt (hw.get_of_ne (hins.target ho) ?_)
    rintro rfl
    exact hsp ho
  -- one case for each effect: it moves the stack pointer as its opcode says, or not at all
  cases h with
  | idle hop =>
    have hdelta : ins.opcode.stackDelta = 0 := by
      rcases hop with h | h | h | h
      · rw [h]; rfl
      · rw [h]; rfl
      · rw [h]; rfl
      · exact stackDelta_of_taken h
    rw [hdelta, Int.sub_zero]
  | write hstack ho hw => rw [hwrote ho hw, hstack, Int.sub_zero]
  | push v hop hc => rw [sp_pushed, Opcode.stackDelta_push hop]
  | pop hop hc ho hw => rw [hwrote ho hw, sp_setSp, Opcode.stackDelta_pop hop, Int.sub_neg]
  | remainder r hop => rw [hop]; exact (Int.sub_zero _).symm
  | flags a b hop => rw [hop]; exact (Int.sub_zero _).symm
  | jump t hop =>
    have hdelta : ins.opcode.stackDelta = 0 := by
      rcases hop with h | h
      · rw [h]; rfl
      · exact stackDelta_of_taken h
    rw [sp_setIp, hdelta, Int.sub_zero]
  | call t hop hc => rw [sp_setIp, sp_pushed, hop]; rfl
  | ret hop hc => rw [sp_setIp, sp_setSp, hop]; rfl
  | print v hop => rw [hop]; exact (Int.sub_zero _).symm

end Machine

end CellMachine
