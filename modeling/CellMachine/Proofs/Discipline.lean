import CellMachine.Proofs.Operations
import CellMachine.Proofs.Rounds

/-!
# Invariants of instructions and runs

An instruction reaches the machine only through a handful of changes: it writes a register or a
cell through a target operand, pushes or pops, and sets the flags, the remainder, the output or the
instruction pointer. An invariant that these keep is kept by every instruction, and then by every
run. `Discipline` bundles an invariant with the proof that these changes keep it, and with what is
to be known of a fault and of the machine that a fault leaves.

What a fault leaves need not have the invariant: a push that fails at its cell has already moved the
stack pointer. So a discipline says separately what holds after a fault, and an invariant that gives
way a little with each failure is a discipline for each number of failures before.

* `Exec.Ends x m Q E` is the outcome of an action at a machine: `Q` of a result, `E` of a fault.
* `Discipline.execute` is the one case analysis over all opcodes: a discipline is kept by every
  instruction that it admits. An instruction is admitted by its operands, each according to the kind
  that the signature of the opcode gives it.
* `Discipline.step` and `Discipline.after` are the same for a step of a session and for a run of any
  number of rounds.
-/

namespace CellMachine

namespace Exec

variable {α β : Type}

/-- The outcome of an action: `Q` holds of its result and `E` of its fault, each together with the
machine that is left. -/
def Ends (x : Exec α) (m : Machine) (Q : α → Machine → Prop) (E : Fault → Machine → Prop) : Prop :=
  match x m with
  | .ok a m' => Q a m'
  | .error fault m' => E fault m'

variable {x : Exec α} {m : Machine} {Q : α → Machine → Prop} {E : Fault → Machine → Prop}

/-- What is known of the outcome is known of a result. -/
theorem Ends.ok {a : α} {m' : Machine} (h : Ends x m Q E) (hx : x m = .ok a m') : Q a m' := by
  unfold Ends at h
  rw [hx] at h
  exact h

/-- What is known of the outcome is known of a fault. -/
theorem Ends.error {fault : Fault} {m' : Machine} (h : Ends x m Q E)
    (hx : x m = .error fault m') : E fault m' := by
  unfold Ends at h
  rw [hx] at h
  exact h

/-- What is known of an outcome can be weakened. -/
theorem Ends.imp {Q' : α → Machine → Prop} {E' : Fault → Machine → Prop} (h : Ends x m Q E)
    (hQ : ∀ a m', Q a m' → Q' a m') (hE : ∀ fault m', E fault m' → E' fault m') :
    Ends x m Q' E' := by
  unfold Ends at h ⊢
  split at h
  · exact hQ _ _ h
  · exact hE _ _ h

/-- One action after another: what the first one leaves is what the second one starts from, and a
fault of either is a fault of both. -/
theorem Ends.bind {f : α → Exec β} {R : β → Machine → Prop} (hx : Ends x m Q E)
    (hf : ∀ a m', Q a m' → Ends (f a) m' R E) : Ends (x >>= f) m R E := by
  unfold Ends at hx ⊢
  rw [bind_apply]
  cases h : x m with
  | ok a m' =>
    -- the second action starts from the machine that the first one left
    rw [h] at hx
    exact hf a m' hx
  | error fault m' =>
    rw [h] at hx
    exact hx

/-- Looking at the machine does not change it. -/
theorem ends_get_bind {f : Machine → Exec α} (h : Ends (f m) m Q E) : Ends (get >>= f) m Q E := by
  unfold Ends at h ⊢
  rw [bind_apply, get_apply]
  exact h

/-- An operand that cannot be read leaves the machine as it was. -/
theorem ends_load_bind {o : Operand} {f : Int → Exec α}
    (hfault : ∀ fault, m.valueOf o = .error fault → E fault m)
    (hok : ∀ v, m.valueOf o = .ok v → Ends (f v) m Q E) : Ends (Machine.load o >>= f) m Q E := by
  unfold Ends
  rw [Machine.load_bind]
  cases h : m.valueOf o with
  | ok v => exact hok v h
  | error fault => exact hfault fault h

/-- An operand that cannot be written leaves the machine as it was. -/
theorem ends_store {o : Operand} {n : Int} {Q : Unit → Machine → Prop}
    (hfault : ∀ fault, m.stored o n = .error fault → E fault m)
    (hok : ∀ m', m.stored o n = .ok m' → Q () m') : Ends (Machine.store o n) m Q E := by
  unfold Ends
  rw [Machine.store_eq]
  cases h : m.stored o n with
  | ok m' => exact hok m' h
  | error fault => exact hfault fault h

/-- A push is refused, fails at its cell with the stack pointer moved, or succeeds. -/
theorem ends_push {n : Int} {Q : Unit → Machine → Prop}
    (hlimit : m.checked = true → m.registers.sp - 1 < m.stackLimit →
      E (.stackOverflow (m.registers.sp - 1) m.stackLimit) m)
    (hfault : ∀ fault, m.locate .releasedWrite (m.registers.sp - 1) = .error fault →
      E fault (m.setSp (m.registers.sp - 1)))
    (hok : ∀ c, m.locate .releasedWrite (m.registers.sp - 1) = .ok c →
      Q () { m.setSp (m.registers.sp - 1) with cells := m.cells.set c (Word.wrap n) }) :
    Ends (Machine.push n) m Q E := by
  unfold Ends
  rw [Machine.push_eq]
  by_cases hl : m.checked = true ∧ m.registers.sp - 1 < m.stackLimit
  · rw [if_pos hl]
    exact hlimit hl.1 hl.2
  · rw [if_neg hl]
    -- from here on the stack pointer has moved, and the cell is the same as before
    cases hs : (m.setSp (m.registers.sp - 1)).cellSet (m.registers.sp - 1) n with
    | ok m' =>
      obtain ⟨c, hc, rfl⟩ := Machine.cellSet_eq_ok hs
      rw [Machine.locate_setSp] at hc
      exact hok c hc
    | error fault =>
      have hl := Machine.cellSet_eq_error hs
      rw [Machine.locate_setSp] at hl
      exact hfault fault hl

/-- A pop is refused or fails with the machine as it was, or succeeds. -/
theorem ends_pop {Q : Int → Machine → Prop}
    (hlimit : m.checked = true → m.registers.bp ≤ m.registers.sp →
      E (.stackUnderflow m.registers.sp) m)
    (hfault : ∀ fault, m.locate .releasedRead m.registers.sp = .error fault → E fault m)
    (hok : ∀ c, m.locate .releasedRead m.registers.sp = .ok c →
      Q (m.cells.get c) (m.setSp (m.registers.sp + 1))) :
    Ends Machine.pop m Q E := by
  unfold Ends
  rw [Machine.pop_eq]
  unfold Machine.cellAt
  by_cases hl : m.checked = true ∧ m.registers.bp ≤ m.registers.sp
  · rw [if_pos hl]
    exact hlimit hl.1 hl.2
  · rw [if_neg hl]
    cases hc : m.locate .releasedRead m.registers.sp with
    | ok c => exact hok c hc
    | error fault => exact hfault fault hc

end Exec

open Exec

/-- An invariant of machines that the changes an instruction can make all keep. -/
structure Discipline where
  /-- The invariant. -/
  inv : Machine → Prop
  /-- What holds of a fault and of the machine that it leaves. -/
  fault : Fault → Machine → Prop
  /-- The operands that an instruction may read. -/
  source : Operand → Prop
  /-- The operands that an instruction may read and write. -/
  target : Operand → Prop
  /-- The values that may be stored in a register. -/
  value : Value → Prop
  /-- The instruction pointer has left the program. -/
  outside {m : Machine} (count : Nat) : inv m → fault (.outsideProgram m.registers.ip count) m
  /-- The instruction pointer is at the end of the program. -/
  at_end {m : Machine} : inv m → fault (.atEnd m.registers.ip) m
  /-- A number in the line of a trace has too many digits. -/
  untraceable {m : Machine} {ins : Instruction} {n : Int} :
    inv m → (∀ o ∈ ins.operands, source o ∨ target o) →
      n ∈ Monitor.lineNumbers m.registers.ip ins m.registers → Text.isWritable n = false →
      fault .unwritable m
  /-- A failure to read. -/
  read_fault {m : Machine} {o : Operand} {f : Fault} :
    inv m → source o ∨ target o → m.valueOf o = .error f → fault f m
  /-- The values that are copied between registers. -/
  read_value {m : Machine} {o : Operand} {v : Value} :
    inv m → source o → m.taggedOf o = .ok v → value v
  /-- The values that numbers are stored as. -/
  word_value (n : Int) : value (.int (Word.wrap n))
  /-- A failure to write. -/
  write_fault {m : Machine} {o : Operand} {n : Int} {f : Fault} :
    inv m → target o → m.stored o n = .error f → fault f m
  /-- A register is written. -/
  write_register {m m' : Machine} {i : Int} {v : Value} :
    inv m → target (.register i) → value v → m.registerSet i v = .ok m' → inv m'
  /-- A cell is written through an operand. -/
  write_cell {m m' : Machine} {i n : Int} :
    inv m → target (.cell i) → m.cellSet i n = .ok m' → inv m'
  /-- A number is pushed. -/
  push {m : Machine} (n : Int) : inv m → Ends (Machine.push n) m (fun _ => inv) fault
  /-- A number is popped. -/
  pop {m : Machine} : inv m → Ends Machine.pop m (fun _ => inv) fault
  /-- The instruction pointer is set. -/
  setIp {m : Machine} (index : Int) : inv m → inv (m.setIp index)
  /-- A remainder is kept. -/
  remainder {m : Machine} {a b r : Int} :
    inv m → Word.mod? a b = some r → inv { m with remainder := r }
  /-- Two numbers are compared. -/
  flags {m : Machine} (a b : Int) : inv m → inv { m with flags := Word.compare a b }
  /-- A number is printed. -/
  printed {m : Machine} (n : Int) : inv m → inv { m with printed := m.printed.push n }
  /-- A number that is to be printed has too many digits. -/
  unprintable {m : Machine} {o : Operand} {n : Int} :
    inv m → source o → m.valueOf o = .ok n → Text.isWritable n = false → fault .unwritable m
  /-- A divisor is zero. -/
  zero_divisor {m : Machine} : inv m → fault .zeroDivisor m
  /-- A divisor is zero, and the remainder was asked for. -/
  zero_modulus {m : Machine} : inv m → fault .zeroModulus m

namespace Discipline

variable (D : Discipline)

/-- An operand may be used as its kind asks for. -/
def Fits : OperandKind → Operand → Prop
  | .target, o => D.target o
  | .source, o => D.source o

/-- An instruction may be executed: its operands are as many as the signature asks for, and each
may be used as its kind. Where a missing operand is an allowed fault and all operands may be read,
any number will do. -/
structure Admits (ins : Instruction) : Prop where
  arity : ins.operands.length = ins.opcode.signature.length ∨
    (∀ o ∈ ins.operands, D.source o) ∧ ∀ m, D.inv m → D.fault .missingOperand m
  fits : ∀ x ∈ ins.opcode.signature.zip ins.operands, D.Fits x.1 x.2

/-- An action ends with the invariant or with an allowed fault. -/
def Keeps (x : Exec Unit) (m : Machine) : Prop := Ends x m (fun _ => D.inv) D.fault

variable {D} {m : Machine} {target source : Operand}

/-! ### Operands -/

/-- Every operand of an instruction that is admitted may be read. -/
theorem Admits.readable {ins : Instruction} (h : D.Admits ins) {o : Operand}
    (ho : o ∈ ins.operands) : D.source o ∨ D.target o := by
  obtain ⟨hlength | ⟨hsource, -⟩, hfits⟩ := h
  · -- as many operands as kinds, so this one is paired with a kind
    obtain ⟨i, hi, rfl⟩ := List.getElem_of_mem ho
    have hmem := List.getElem_mem (l := ins.opcode.signature.zip ins.operands) (n := i)
      (by rw [List.length_zip]; omega)
    have hfit := hfits _ hmem
    rw [List.getElem_zip] at hfit
    cases hkind : ins.opcode.signature[i] with
    | target => exact Or.inr (by rw [hkind] at hfit; exact hfit)
    | source => exact Or.inl (by rw [hkind] at hfit; exact hfit)
  · exact Or.inl (hsource o ho)

theorem keeps_get_bind {f : Machine → Exec Unit} (h : D.Keeps (f m) m) :
    D.Keeps (get >>= f) m :=
  ends_get_bind h

/-- An action may begin by reading an operand. -/
theorem keeps_load_bind {f : Int → Exec Unit} {o : Operand} (hm : D.inv m)
    (ho : D.source o ∨ D.target o) (hf : ∀ v, m.valueOf o = .ok v → D.Keeps (f v) m) :
    D.Keeps (Machine.load o >>= f) m :=
  ends_load_bind (fun _ h => D.read_fault hm ho h) hf

/-- **A number is stored** through a target operand. -/
theorem keeps_store (hm : D.inv m) (ht : D.target target) (n : Int) :
    D.Keeps (Machine.store target n) m := by
  refine ends_store (fun _ h => D.write_fault hm ht h) fun m' h => ?_
  -- a store that succeeds was one to a register or a cell
  cases target with
  | register i => exact D.write_register hm ht (D.word_value n) h
  | cell i => exact D.write_cell hm ht h
  | immediate v => cases h
  | label name => cases h

/-- **A value is stored** through a target operand, as it is if that is a register. -/
theorem keeps_storeValue (hm : D.inv m) (ht : D.target target) {v : Value} (hv : D.value v) :
    D.Keeps (Machine.storeValue target v) m := by
  cases target with
  | register i =>
    unfold Keeps Ends
    rw [Machine.storeValue_eq]
    cases h : m.storedTagged (.register i) v with
    | ok m' => exact D.write_register hm ht hv h
    | error fault =>
      -- a slot that is missing for a value is missing for a number
      refine D.write_fault (n := v.toInt) hm ht ?_
      change m.registerSet i v = .error fault at h
      change m.registerSet i _ = .error fault
      unfold Machine.registerSet at h ⊢
      cases hs : Machine.slot .noSuchTarget i with
      | ok s => rw [hs] at h; cases h
      | error fault' => rw [hs] at h; exact h
  | cell i => exact keeps_store hm ht v.toInt
  | immediate n => exact keeps_store hm ht v.toInt
  | label name => exact keeps_store hm ht v.toInt

/-! ### Instructions

One lemma for each action that `Machine.execute` chooses from. Each reads its operands in turn and
then makes one of the changes that a discipline speaks of. -/

/-- An operand is replaced by a function of it. -/
theorem keeps_unary (hm : D.inv m) (ht : D.target target) (f : Int → Int) :
    D.Keeps (Machine.unary f target) m :=
  keeps_load_bind hm (Or.inr ht) fun _ _ => keeps_store hm ht _

/-- An operand is replaced by a function of it and of a second one. -/
theorem keeps_binary (hm : D.inv m) (ht : D.target target) (hs : D.source source)
    (f : Int → Int → Int) : D.Keeps (Machine.binary f target source) m :=
  keeps_load_bind hm (Or.inr ht) fun _ _ => keeps_load_bind hm (Or.inl hs) fun _ _ =>
    keeps_store hm ht _

/-- A quotient is stored, or the divisor is at fault. -/
theorem keeps_divide (hm : D.inv m) (ht : D.target target) (hs : D.source source) :
    D.Keeps (Machine.divide target source) m := by
  refine keeps_load_bind hm (Or.inr ht) fun a _ => keeps_load_bind hm (Or.inl hs) fun b _ => ?_
  cases Word.div? a b with
  | some q => exact keeps_store hm ht q
  | none => exact D.zero_divisor hm

/-- A remainder is kept, or the divisor is at fault. -/
theorem keeps_modulo {first second : Operand} (hm : D.inv m) (hf : D.source first)
    (hs : D.source second) : D.Keeps (Machine.modulo first second) m := by
  refine keeps_load_bind hm (Or.inl hf) fun a _ => keeps_load_bind hm (Or.inl hs) fun b _ => ?_
  cases h : Word.mod? a b with
  | some r => exact D.remainder hm h
  | none => exact D.zero_modulus hm

theorem keeps_compareOperands {first second : Operand} (hm : D.inv m) (hf : D.source first)
    (hs : D.source second) : D.Keeps (Machine.compareOperands first second) m :=
  keeps_load_bind hm (Or.inl hf) fun a _ => keeps_load_bind hm (Or.inl hs) fun b _ =>
    D.flags a b hm

/-- A value is copied. It is one that the discipline lets pass, or a number that is stored. -/
theorem keeps_move (hm : D.inv m) (ht : D.target target) (hs : D.source source) :
    D.Keeps (Machine.move target source) m := by
  unfold Keeps Ends Machine.move
  rw [Machine.loadValue_bind]
  cases h : m.taggedOf source with
  | ok v => exact keeps_storeValue hm ht (D.read_value hm hs h)
  | error fault => exact D.read_fault hm (Or.inl hs) (Machine.valueOf_of_taggedOf_error h)

/-- Control is transferred, which sets the instruction pointer. -/
theorem keeps_transfer (hm : D.inv m) (hs : D.source source) :
    D.Keeps (Machine.transfer source) m :=
  keeps_load_bind hm (Or.inl hs) fun v _ => D.setIp (v - 1) hm

/-- A jump that is not taken keeps everything. -/
theorem keeps_transferIf (hm : D.inv m) (hs : D.source source) (condition : Int → Bool) :
    D.Keeps (Machine.transferIf condition source) m := by
  apply keeps_get_bind
  split
  · exact keeps_transfer hm hs
  · -- a jump that is not taken does not read its operand
    exact hm

/-- A number is printed, or has too many digits for that. -/
theorem keeps_print (hm : D.inv m) (hs : D.source source) : D.Keeps (Machine.print source) m := by
  refine keeps_load_bind hm (Or.inl hs) fun v hv => ?_
  cases hw : Text.isWritable v with
  | true => exact D.printed v hm
  | false => exact D.unprintable hm hs hv hw

theorem keeps_pushOperand (hm : D.inv m) (hs : D.source source) :
    D.Keeps (Machine.pushOperand source) m :=
  keeps_load_bind hm (Or.inl hs) fun v _ => D.push v hm

/-- A number is popped and then stored; the store starts from what the pop has left. -/
theorem keeps_popOperand (hm : D.inv m) (ht : D.target target) :
    D.Keeps (Machine.popOperand target) m :=
  (D.pop hm).bind fun v _ hm' => keeps_store hm' ht v

/-- A call pushes its index first, and reads its target from what the push has left. -/
theorem keeps_callTarget (hm : D.inv m) (hs : D.source source) :
    D.Keeps (Machine.callTarget source) m := by
  apply keeps_get_bind
  exact (D.push m.registers.ip hm).bind fun _ _ hm' => keeps_transfer hm' hs

/-- A return is a pop and a transfer. -/
theorem keeps_returnToCaller (hm : D.inv m) : D.Keeps Machine.returnToCaller m :=
  (D.pop hm).bind fun index _ hm' => D.setIp index hm'

/-- An instruction with one operand. -/
theorem keeps_withOne {opcode : Opcode} {operands : List Operand} {kind : OperandKind}
    {action : Operand → Exec Unit} (hm : D.inv m) (h : D.Admits ⟨opcode, operands⟩)
    (hkind : opcode.signature = [kind]) (haction : ∀ o, D.Fits kind o → D.Keeps (action o) m) :
    D.Keeps (Machine.withOne operands action) m := by
  obtain ⟨harity, hfits⟩ := h
  simp only [hkind] at harity hfits
  unfold Machine.withOne
  split
  · next o => exact haction o (hfits (kind, o) (List.mem_singleton_self _))
  · next hne =>
    -- the wrong number of operands is either excluded or an allowed fault
    refine harity.elim (fun hlen => ?_) (fun hmissing => hmissing.2 m hm)
    obtain ⟨o, rfl⟩ := List.length_eq_one_iff.mp hlen
    exact absurd rfl (hne o)

/-- An instruction with two operands. -/
theorem keeps_withTwo {opcode : Opcode} {operands : List Operand} {first second : OperandKind}
    {action : Operand → Operand → Exec Unit} (hm : D.inv m) (h : D.Admits ⟨opcode, operands⟩)
    (hkind : opcode.signature = [first, second])
    (haction : ∀ a b, D.Fits first a → D.Fits second b → D.Keeps (action a b) m) :
    D.Keeps (Machine.withTwo operands action) m := by
  obtain ⟨harity, hfits⟩ := h
  simp only [hkind] at harity hfits
  unfold Machine.withTwo
  split
  · next a b =>
    exact haction a b (hfits (first, a) List.mem_cons_self)
      (hfits (second, b) (List.mem_cons_of_mem _ (List.mem_singleton_self _)))
  · next hne =>
    refine harity.elim (fun hlen => ?_) (fun hmissing => hmissing.2 m hm)
    match operands, hlen, hne with
    | [a, b], _, hne => exact absurd rfl (hne a b)

/-- **One instruction.** A discipline is kept by every instruction that it admits. -/
theorem execute {ins : Instruction} (hm : D.inv m) (h : D.Admits ins) :
    D.Keeps (Machine.execute ins.opcode ins.operands) m := by
  obtain ⟨opcode, operands⟩ := ins
  -- the signature of each opcode names the kinds under which its operands were admitted
  cases opcode with
  | stop | nop | int => exact hm
  | mov => exact keeps_withTwo hm h rfl fun _ _ => keeps_move hm
  | push => exact keeps_withOne hm h rfl fun _ => keeps_pushOperand hm
  | pop | popf => exact keeps_withOne hm h rfl fun _ => keeps_popOperand hm
  | pushf => exact keeps_get_bind (D.push m.flags hm)
  | inc | dec | not => exact keeps_withOne hm h rfl fun _ ht => keeps_unary hm ht _
  | add | sub | mul | xor | or | and | shl | shr =>
    exact keeps_withTwo hm h rfl fun _ _ ht hs => keeps_binary hm ht hs _
  | div => exact keeps_withTwo hm h rfl fun _ _ => keeps_divide hm
  | mod => exact keeps_withTwo hm h rfl fun _ _ => keeps_modulo hm
  | rem => exact keeps_withOne hm h rfl fun _ ht => keeps_get_bind (keeps_store hm ht m.remainder)
  | cmp => exact keeps_withTwo hm h rfl fun _ _ => keeps_compareOperands hm
  | jmp => exact keeps_withOne hm h rfl fun _ => keeps_transfer hm
  | call => exact keeps_withOne hm h rfl fun _ => keeps_callTarget hm
  | ret => exact keeps_returnToCaller hm
  | je | jne | jg | jge | jl | jle =>
    exact keeps_withOne hm h rfl fun _ hs => keeps_transferIf hm hs _
  | prn => exact keeps_withOne hm h rfl fun _ => keeps_print hm

/-! ### Steps and runs -/

variable (D) in
/-- Every instruction of a program that can be executed is admitted. -/
def AdmitsProgram (p : Program) : Prop :=
  ∀ ins ∈ p.instructions, ins.opcode ≠ .stop → D.Admits ins

/-- A monitor that balks at an instruction is an allowed fault. -/
theorem fault_of_balks {ins : Instruction} {w : Monitor} (hm : D.inv m) (h : D.Admits ins)
    (hw : w.balks m.registers.ip ins m.registers = true) : D.fault .unwritable m := by
  unfold Monitor.balks at hw
  -- some number of the line is the reason
  obtain ⟨-, hall⟩ := Bool.and_eq_true_iff.mp hw
  rw [Bool.not_eq_true', List.all_eq_false] at hall
  obtain ⟨n, hn, hlong⟩ := hall
  exact D.untraceable hm (fun _ => h.readable) hn ((Bool.not_eq_true _).mp hlong)

/-- **One step of a session.** -/
theorem step {p : Program} {w : Monitor} (hm : D.inv m) (hp : D.AdmitsProgram p) :
    match Session.step p ⟨m, w⟩ with
    | .ok () s => D.inv s.machine
    | .error fault s => D.fault fault s.machine := by
  cases hf : p.fetch m.registers.ip with
  | error fault =>
    simp only [Session.step, hf]
    rw [fetch_fault hf]
    exact D.outside p.size hm
  | ok ins =>
    by_cases hstop : ins.opcode = .stop
    · simp only [Session.step, hf, if_pos hstop]
      exact D.at_end hm
    · have hins := hp ins (mem_of_fetch hf) hstop
      by_cases hw : w.balks m.registers.ip ins m.registers = true
      · simp only [Session.step, hf, if_neg hstop, if_pos hw]
        exact fault_of_balks hm hins hw
      · have hexec := D.execute hm hins
        simp only [Session.step, hf, if_neg hstop, if_neg hw]
        cases hx : Machine.execute ins.opcode ins.operands m with
        | ok a m' => exact hexec.ok hx
        | error fault m' => exact hexec.error hx

variable (D) in
/-- A run is in order: its machine has the invariant, or it failed with an allowed fault. -/
def InOrder (r : Run) : Prop :=
  match r.status with
  | .faulted fault => D.fault fault r.session.machine
  | _ => D.inv r.session.machine

/-- A run that starts on a machine with the invariant is in order. -/
theorem InOrder.start {s : Session} (hm : D.inv s.machine) (p : Program) :
    D.InOrder (Run.start p s) :=
  D.setIp p.start hm

/-- A run that executes nothing more ends in order. -/
theorem InOrder.verdict {p : Program} {r : Run} (h : D.InOrder r) (hp : D.AdmitsProgram p)
    (hdue : Run.due? p r = none) : D.InOrder { r with status := Run.verdict p r } := by
  obtain ⟨⟨m, w⟩, steps, status⟩ := r
  cases status with
  | finished => exact h
  | faulted fault => exact h
  | running =>
    unfold InOrder Run.verdict
    cases hf : p.fetch m.registers.ip with
    | error fault =>
      rw [fetch_fault hf]
      exact D.outside p.size h
    | ok ins =>
      by_cases hstop : ins.opcode = .stop
      · simp only [if_pos hstop]
        exact h
      · -- an instruction that is not due is one at which the monitor balks
        simp only [if_neg hstop]
        refine fault_of_balks h (hp ins (mem_of_fetch hf) hstop) (w := w) ?_
        refine Decidable.byContradiction fun hw => ?_
        have hsome : Run.due? p ⟨⟨m, w⟩, steps, .running⟩ = some ins :=
          Run.due?_eq_some_iff.mpr ⟨rfl, hf, hstop, (Bool.not_eq_true _).mp hw⟩
        rw [hdue] at hsome
        cases hsome

/-- **One round** keeps a run in order. -/
theorem InOrder.advance {p : Program} {r : Run} (h : D.InOrder r) (hp : D.AdmitsProgram p) :
    D.InOrder (Run.advance p r) := by
  cases hdue : Run.due? p r with
  | none =>
    rw [Run.advance_of_not_due hdue]
    exact h.verdict hp hdue
  | some ins =>
    rw [Run.advance_of_due hdue]
    obtain ⟨s, steps, status⟩ := r
    obtain ⟨hs, -, hstop, -⟩ := Run.due?_eq_some_iff.mp hdue
    obtain rfl : status = .running := hs
    have hexec := D.execute h (hp ins (Run.mem_of_due hdue) hstop)
    cases hx : Machine.execute ins.opcode ins.operands s.machine with
    | ok a m' =>
      -- the run moves the instruction pointer on
      exact D.setIp _ (hexec.ok hx)
    | error fault m' => exact hexec.error hx

/-- **A whole run.** A run that begins with the invariant stays in order, for as many rounds as it
is given, when its program is admitted. -/
theorem after {p : Program} {r : Run} (hr : D.InOrder r) (hp : D.AdmitsProgram p) (n : Nat) :
    D.InOrder (Run.after p n r) := by
  induction n with
  | zero => exact hr
  | succ n ih =>
    rw [Run.after_succ]
    exact ih.advance hp

/-- For as long as the run has not failed, its machine has the invariant. -/
theorem InOrder.inv {r : Run} (h : D.InOrder r) (hr : r.status = .running) :
    D.inv r.session.machine := by
  unfold InOrder at h
  rw [hr] at h
  exact h

/-- Where an instruction is due, the machine has the invariant. -/
theorem inv_of_due {p : Program} {s : Session} (hm : D.inv s.machine) (hp : D.AdmitsProgram p)
    {n : Nat} {ins : Instruction} (hdue : Run.due? p (Run.after p n (Run.start p s)) = some ins) :
    D.inv (Run.after p n (Run.start p s)).session.machine :=
  (D.after (InOrder.start hm p) hp n).inv (Run.due?_eq_some_iff.mp hdue).1

end Discipline

end CellMachine
