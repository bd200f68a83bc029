import CellMachine.Layout
import CellMachine.Proofs.Discipline
import CellMachine.Proofs.Validity

/-!
# Sound machines

What holds of a machine while validated programs run on it. It holds a block of words, and its
registers are bounded: an instruction stores words, copies registers, or moves the stack pointer to
a neighbour of a cell of the block. Only a push that fails at its cell can move the stack pointer
further, by one cell, so a register outgrows the words and the block only by the number of failures
so far (`Machine.Sound`). The number of instructions makes no difference.

A well-formed instruction keeps a machine sound, and few faults are left to it: the instruction
pointer leaves the program, a bounds check fails, a divisor is zero, or an unchecked access finds no
cell (`Fault.Foreseen`). The only other one is that a number has too many digits to be written.
`safety` is the discipline that says so.

The bound on the registers is there for the last fault, and for the numbers that belong to the
others: they have few enough digits (`Machine.Sound.line_writable`, `Machine.Failed.told`), if those
have that the program itself refers to cells by (`Program.Legible`).
-/

namespace CellMachine

/-! ### Foreseen faults -/

/-- The faults that are foreseen of a running program. On an unchecked machine an access that no
cell answers to is one of them. -/
def Fault.Foreseen (checked : Bool) (f : Fault) : Prop :=
  f.isRuntime = true ∨ checked = false ∧ (f = .noSuchCell ∨ f = .wideIndex)

/-- The indices of the cells that a program refers to have few enough digits to be written. -/
def Program.Legible (p : Program) : Prop :=
  ∀ ins ∈ p.instructions, ∀ i, Operand.cell i ∈ ins.operands → Text.isWritable i = true

/-- A number between two writable bounds is writable. -/
theorem Text.isWritable_of_le {n b : Int} (hlow : -b ≤ n) (hhigh : n ≤ b)
    (hb : b < writableBound) : isWritable n = true := by
  unfold isWritable
  exact decide_eq_true (by omega)

namespace Machine

/-- An index from the front refers to its own register. -/
theorem slot_of_inRange {i : Int} (h : 0 ≤ i ∧ i < slotCount) (missing : Fault) :
    ∃ s : Slot, s.val = i.toNat ∧ slot missing i = .ok s := by
  have hfits : Index.Fits i := by
    unfold Index.Fits
    unfold slotCount at h
    omega
  unfold slot
  rw [if_neg (not_not_intro hfits), Index.fromEnd?_of_nonneg h.1, Index.ofInt?_of_lt h]
  exact ⟨_, rfl, rfl⟩

/-- Two blocks next to each other have few enough cells for their number to be written. -/
theorem sizes_lt_writableBound : 2 * sizeLimit + 1 < Text.writableBound := by
  have hdigits : 19 ≤ Text.digitLimit := by decide
  unfold Text.writableBound
  -- the power itself is too large to be computed
  generalize Text.digitLimit = digits at hdigits
  have hlimit : 2 * sizeLimit + 1 < (Nat.pow 10 19 : Nat) := by decide
  have hpow : Nat.pow 10 19 ≤ Nat.pow 10 digits := Nat.pow_le_pow_right (by decide) hdigits
  exact Int.lt_of_lt_of_le hlimit (Int.ofNat_le.mpr hpow)

/-- A number of cells that can be allocated can be written. -/
theorem isWritable_of_le_sizeLimit {i : Int} (hlow : -1 ≤ i) (hhigh : i ≤ sizeLimit) :
    Text.isWritable i = true := by
  have hlimit := sizes_lt_writableBound
  refine Text.isWritable_of_le (b := sizeLimit) ?_ hhigh ?_
  · unfold sizeLimit
    omega
  · unfold sizeLimit at hlimit ⊢
    omega

/-- An index of a block, or one next to it, can be written. -/
theorem isWritable_near_block {count : Nat} (hcount : (count : Int) ≤ sizeLimit) {i : Int}
    (hlow : -1 ≤ i) (hhigh : i ≤ count) : Text.isWritable i = true :=
  isWritable_of_le_sizeLimit hlow (Int.le_trans hhigh hcount)

/-! ### Sound machines -/

/-- The registers of a sound machine after `k` failures lie between this number and its negative. -/
def reach (k : Nat) : Int := sizeLimit + k

/-- **Soundness.** The machine holds a block of the size that its layout gives, of cells that are
words, and its registers have not outgrown `k` failures. -/
structure Sound (l : Layout) (k : Nat) (m : Machine) : Prop where
  held : m.released = false
  checked : m.checked = l.checked
  count : (m.cellCount : Int) ≤ sizeLimit
  stack : 0 ≤ m.stackSize ∧ m.stackSize ≤ sizeLimit
  cells : ∀ c, Word.InRange (m.cells.get c)
  registers : ∀ s, -reach k ≤ (m.registers.get s).toInt ∧ (m.registers.get s).toInt ≤ reach k

variable {l : Layout} {k : Nat} {m : Machine}

/-- Words are within reach, as the largest block has more cells than there are words. -/
theorem within_reach_of_inRange {n : Int} (h : Word.InRange n) (k : Nat) :
    -reach k ≤ n ∧ n ≤ reach k := by
  unfold Word.InRange Word.minimum Word.maximum at h
  unfold reach sizeLimit
  omega

/-- Another failure asks for less. -/
theorem Sound.succ (h : m.Sound l k) : m.Sound l (k + 1) where
  held := h.held
  checked := h.checked
  count := h.count
  stack := h.stack
  cells := h.cells
  registers s := by
    have hs := h.registers s
    unfold reach at hs ⊢
    omega

/-- A register may be set to anything within reach. -/
theorem Sound.setRegister (h : m.Sound l k) (s : Slot) {v : Value}
    (hv : -reach k ≤ v.toInt ∧ v.toInt ≤ reach k) :
    Sound l k { m with registers := m.registers.set s v } where
  held := h.held
  checked := h.checked
  count := h.count
  stack := h.stack
  cells := h.cells
  registers t := by
    -- the register that was set holds the new value, every other one what it held
    by_cases hst : s = t
    · subst hst
      rw [RegisterFile.get_set_self]
      exact hv
    · rw [RegisterFile.get_set_of_ne _ _ hst]
      exact h.registers t

/-- A cell may be set to a word. -/
theorem Sound.setCell (h : m.Sound l k) (c : Nat) (n : Int) :
    Sound l k { m with cells := m.cells.set c (Word.wrap n) } where
  held := h.held
  checked := h.checked
  count := h.count
  stack := h.stack
  cells d := by
    rw [Cells.get_set]
    split
    · exact Word.wrap_inRange n
    · exact h.cells d
  registers := h.registers

theorem Sound.setIp (h : m.Sound l k) (index : Int) : (m.setIp index).Sound l k :=
  h.setRegister Slot.ip (within_reach_of_inRange (Word.wrap_inRange index) k)

/-- The stack pointer moves to a cell of the block, or one next to it. -/
theorem Sound.setSp_near_block (h : m.Sound l k) {cell : Int}
    (hcell : -(m.cellCount : Int) ≤ cell ∧ cell ≤ m.cellCount) : (m.setSp cell).Sound l k := by
  refine h.setRegister Slot.sp ?_
  have hcount := h.count
  change -reach k ≤ cell ∧ cell ≤ reach k
  unfold reach
  omega

/-- The stack pointer moves to a neighbouring cell, wherever it is. This is what a failure leaves. -/
theorem Sound.setSp (h : m.Sound l k) {cell : Int}
    (hcell : m.registers.sp - 1 ≤ cell ∧ cell ≤ m.registers.sp + 1) :
    (m.setSp cell).Sound l (k + 1) := by
  refine h.succ.setRegister Slot.sp ?_
  have hsp : -reach k ≤ m.registers.sp ∧ m.registers.sp ≤ reach k := h.registers Slot.sp
  change -reach (k + 1) ≤ cell ∧ cell ≤ reach (k + 1)
  unfold reach at hsp ⊢
  omega

/-! ### Faults of a sound machine -/

/-- **Where no cell is found.** A sound machine fails to find a cell only in a foreseen way, and the
fault can be told if the index can be written. -/
theorem Sound.locate_fault (h : m.Sound l k) {whenReleased f : Fault} {i : Int}
    (hl : m.locate whenReleased i = .error f) :
    f.Foreseen l.checked ∧ (Text.isWritable i = true → f.isTold = true) := by
  rcases locate_eq_error hl with ⟨-, -, rfl⟩ | ⟨hr, -⟩ | ⟨hin, hfits, rfl⟩ | ⟨hc, -, rfl⟩
  · refine ⟨Or.inl rfl, fun hi => ?_⟩
    exact List.all_eq_true.mpr (List.forall_mem_singleton.mpr hi)
  · -- the block is held
    rw [h.held] at hr
    cases hr
  · refine ⟨Or.inr ⟨?_, Or.inr rfl⟩, fun _ => rfl⟩
    -- every index of the block is a signed 64-bit number
    cases hc : l.checked with
    | false => rfl
    | true =>
      have hi := hin (h.checked.trans hc)
      have hcount := h.count
      unfold Index.Fits at hfits
      unfold sizeLimit at hcount
      omega
  · exact ⟨Or.inr ⟨h.checked.symm.trans hc, Or.inl rfl⟩, fun _ => rfl⟩

/-- What a fault of a sound machine is like: it is foreseen or a number that cannot be written, it
leaves a sound machine, and it can be told unless a number of the program or the number of failures
is out of all proportion. -/
structure Failed (l : Layout) (legible : Prop) (k : Nat) (f : Fault) (m : Machine) : Prop where
  cause : f.Foreseen l.checked ∨ f = .unwritable
  sound : m.Sound l k
  told : legible → 2 * sizeLimit + k < Text.writableBound → f.isTold = true

variable {legible : Prop}

/-- What is near to a register can be written. -/
theorem isWritable_of_near {n : Int} (hlow : -(reach k + sizeLimit) ≤ n)
    (hhigh : n ≤ reach k + sizeLimit) (hk : 2 * sizeLimit + k < Text.writableBound) :
    Text.isWritable n = true := by
  refine Text.isWritable_of_le hlow hhigh (Int.lt_of_le_of_lt ?_ hk)
  unfold reach
  omega

/-- All registers can be written. -/
theorem Sound.register_writable (h : m.Sound l k) (hk : 2 * sizeLimit + k < Text.writableBound)
    (s : Slot) : Text.isWritable (m.registers.get s).toInt = true := by
  have hs := h.registers s
  refine isWritable_of_near ?_ ?_ hk <;> unfold sizeLimit <;> omega

theorem Sound.ip_writable (h : m.Sound l k)
    (hk : 2 * sizeLimit + k < Text.writableBound) :
    Text.isWritable m.registers.ip = true :=
  h.register_writable hk Slot.ip

/-! ### Operands of a sound machine -/

variable {o : Operand} {f : Fault}

/-- An operand of a validated program fails to be read only where no cell is found. -/
theorem Sound.valueOf_fault (h : m.Sound l k) (ho : Operand.WellFormed .source o)
    (hlegible : legible → ∀ i, o = .cell i → Text.isWritable i = true)
    (hf : m.valueOf o = .error f) : Failed l legible (k + 1) f m := by
  rcases valueOf_eq_error hf with ⟨i, rfl, hs⟩ | ⟨i, rfl, hl⟩ | ⟨name, rfl, -⟩
  · obtain ⟨s, -, hs'⟩ := slot_of_inRange ho .noSuchRegister
    rw [hs'] at hs
    cases hs
  · obtain ⟨hforeseen, htold⟩ := h.locate_fault hl
    exact ⟨Or.inl hforeseen, h.succ, fun hp _ => htold (hlegible hp i rfl)⟩
  · exact absurd ho id

/-- A target of a validated program fails to be written only where no cell is found. -/
theorem Sound.stored_fault (h : m.Sound l k) (ho : Operand.WellFormed .target o)
    (hlegible : legible → ∀ i, o = .cell i → Text.isWritable i = true) {n : Int}
    (hf : m.stored o n = .error f) : Failed l legible (k + 1) f m := by
  rcases stored_eq_error hf with ⟨i, rfl, hs⟩ | ⟨i, rfl, hl⟩ | ⟨hw, -⟩
  · obtain ⟨s, -, hs'⟩ := slot_of_inRange ho .noSuchTarget
    rw [hs'] at hs
    cases hs
  · obtain ⟨hforeseen, htold⟩ := h.locate_fault hl
    exact ⟨Or.inl hforeseen, h.succ, fun hp _ => htold (hlegible hp i rfl)⟩
  · -- what cannot be written is not well-formed as a target
    cases o with
    | register i => cases hw
    | cell i => cases hw
    | immediate v => exact absurd ho id
    | label name => exact absurd ho id

/-- The value of an operand is a word, or it is in a register already. -/
theorem Sound.taggedOf_within (h : m.Sound l k) (ho : Operand.WellFormed .source o) {v : Value}
    (hv : m.taggedOf o = .ok v) : -reach k ≤ v.toInt ∧ v.toInt ≤ reach k := by
  rcases taggedOf_eq_ok hv with ⟨s, rfl⟩ | ⟨c, rfl⟩ | ⟨n, rfl, rfl⟩
  · exact h.registers s
  · exact within_reach_of_inRange (h.cells c) k
  · exact within_reach_of_inRange ho k

/-- The number of an operand can be written. -/
theorem Sound.valueOf_writable (h : m.Sound l k) (ho : Operand.WellFormed .source o) {n : Int}
    (hn : m.valueOf o = .ok n) (hk : 2 * sizeLimit + k < Text.writableBound) :
    Text.isWritable n = true := by
  rw [valueOf_eq_map] at hn
  cases hv : m.taggedOf o with
  | error fault =>
    rw [hv] at hn
    cases hn
  | ok v =>
    rw [hv] at hn
    -- the operand is a register, or it refers to a word
    obtain rfl : v.toInt = n := Except.ok.inj hn
    have hwithin := h.taggedOf_within ho hv
    refine isWritable_of_near ?_ ?_ hk <;> unfold sizeLimit <;> omega

/-- **The line of a trace can be written**, if the cells that the instruction refers to have indices
that can. The index of the instruction is a register, a slot is written by its name, and a literal
is a word. -/
theorem Sound.line_writable (h : m.Sound l k) {ins : Instruction}
    (hops : ∀ o ∈ ins.operands, Operand.WellFormed .source o ∧
      ∀ i, o = .cell i → Text.isWritable i = true)
    (hk : 2 * sizeLimit + k < Text.writableBound) :
    ∀ n ∈ Monitor.lineNumbers m.registers.ip ins m.registers, Text.isWritable n = true := by
  intro n hn
  -- the index, the operands and the registers, in this order
  rcases List.mem_cons.mp hn with rfl | hn
  · exact h.ip_writable hk
  rcases List.mem_append.mp hn with hn | hn
  · obtain ⟨o, ho, hno⟩ := List.mem_flatMap.mp hn
    obtain ⟨hwf, hcell⟩ := hops o ho
    cases o with
    | register i =>
      have hslot : 0 ≤ i ∧ i < slotCount := hwf
      rw [Operand.numbers, if_pos hslot] at hno
      cases hno
    | cell i =>
      obtain rfl := List.mem_singleton.mp hno
      exact hcell n rfl
    | immediate v =>
      obtain rfl := List.mem_singleton.mp hno
      have hwithin := within_reach_of_inRange hwf k
      refine isWritable_of_near ?_ ?_ hk <;> unfold sizeLimit <;> omega
    | label name => cases hno
  · obtain ⟨s, -, rfl⟩ := List.mem_map.mp hn
    exact h.register_writable hk s

/-! ### The stack of a sound machine -/

open Exec

/-- **A push** that succeeds has moved the stack pointer to a cell of the block. One that fails may
have moved it anywhere next to where it was. -/
theorem Sound.push (h : m.Sound l k) (n : Int) :
    Ends (push n) m (fun _ => Sound l k) (Failed l legible (k + 1)) := by
  have hsp : -reach k ≤ m.registers.sp ∧ m.registers.sp ≤ reach k := h.registers Slot.sp
  have hbp : -reach k ≤ m.registers.bp ∧ m.registers.bp ≤ reach k := h.registers Slot.bp
  have hmoved : (m.setSp (m.registers.sp - 1)).Sound l (k + 1) := h.setSp (by omega)
  have hcell : 2 * sizeLimit + (k + 1 : Nat) < Text.writableBound →
      Text.isWritable (m.registers.sp - 1) = true := by
    refine isWritable_of_near ?_ ?_ <;> unfold reach sizeLimit at * <;> omega
  have hlimit : 2 * sizeLimit + (k + 1 : Nat) < Text.writableBound →
      Text.isWritable m.stackLimit = true := by
    -- the stack is no larger than a block can be, so its limit is near to its base
    have hstack := h.stack
    refine isWritable_of_near ?_ ?_ <;> unfold stackLimit wordSize reach sizeLimit at * <;> omega
  refine ends_push (fun _ _ => ?_) (fun f hl => ?_) fun c hc => ?_
  · refine ⟨Or.inl (Or.inl rfl), h.succ, fun _ hk => List.all_eq_true.mpr ?_⟩
    exact List.forall_mem_cons.mpr ⟨hcell hk, List.forall_mem_singleton.mpr (hlimit hk)⟩
  · -- the cell could not be written, but the stack pointer has moved
    obtain ⟨hforeseen, htold⟩ := h.locate_fault hl
    exact ⟨Or.inl hforeseen, hmoved, fun _ hk => htold (hcell hk)⟩
  · obtain ⟨-, hlow, hhigh, -⟩ := locate_eq_ok hc
    exact (h.setSp_near_block ⟨hlow, Int.le_of_lt hhigh⟩).setCell c n

/-- **A pop** that succeeds has moved the stack pointer past a cell of the block. -/
theorem Sound.pop (h : m.Sound l k) :
    Ends pop m (fun _ => Sound l k) (Failed l legible (k + 1)) := by
  have hsp : -reach k ≤ m.registers.sp ∧ m.registers.sp ≤ reach k := h.registers Slot.sp
  have hcell : 2 * sizeLimit + (k + 1 : Nat) < Text.writableBound →
      Text.isWritable m.registers.sp = true := by
    refine isWritable_of_near ?_ ?_ <;> unfold reach sizeLimit at * <;> omega
  refine ends_pop (fun _ _ => ?_) (fun f hl => ?_) fun c hc => ?_
  · refine ⟨Or.inl (Or.inl rfl), h.succ, fun _ hk => List.all_eq_true.mpr ?_⟩
    exact List.forall_mem_singleton.mpr (hcell hk)
  · obtain ⟨hforeseen, htold⟩ := h.locate_fault hl
    exact ⟨Or.inl hforeseen, h.succ, fun _ hk => htold (hcell hk)⟩
  · obtain ⟨-, hlow, hhigh, -⟩ := locate_eq_ok hc
    exact h.setSp_near_block ⟨by omega, by omega⟩

end Machine

/-! ### Well-formed instructions -/

open Machine

/-- A target can also be read. -/
theorem Operand.WellFormed.source {kind : OperandKind} {o : Operand}
    (h : Operand.WellFormed kind o) : Operand.WellFormed .source o := by
  cases kind with
  | source => exact h
  | target =>
    cases o with
    | register i => exact h
    | cell i => exact h
    | immediate v => exact absurd h id
    | label name => exact absurd h id

/-- A well-formed instruction is admitted if its operands fit, each as its kind. -/
theorem Discipline.admits_of_wellFormed {D : Discipline} {ins : Instruction} (h : ins.WellFormed)
    (hfits : ∀ x ∈ ins.opcode.signature.zip ins.operands, Operand.WellFormed x.1 x.2 →
      D.Fits x.1 x.2) : D.Admits ins :=
  ⟨Or.inl h.arity, fun x hx => hfits x hx (h.operands x hx)⟩

/-- A number that cannot be written is the fault of a sound machine only if a number of the program
or the number of failures is out of all proportion. -/
theorem Machine.Sound.unwritable {l : Layout} {k : Nat} {m : Machine} {legible : Prop} {n : Int}
    (h : m.Sound l k)
    (hn : legible → 2 * sizeLimit + k < Text.writableBound → Text.isWritable n = true)
    (hlong : Text.isWritable n = false) : Failed l legible (k + 1) .unwritable m := by
  refine ⟨Or.inr rfl, h.succ, fun hp hk => ?_⟩
  rw [hn hp (by omega)] at hlong
  cases hlong

/-- **Well-formed instructions keep a machine sound.** The operands are the ones that validation
lets pass; where `legible` is assumed, the cells among them have indices that can be written. -/
def safety (l : Layout) (legible : Prop) (k : Nat) : Discipline where
  inv m := m.Sound l k
  fault f m := Failed l legible (k + 1) f m
  source o := Operand.WellFormed .source o ∧
    (legible → ∀ i, o = .cell i → Text.isWritable i = true)
  target o := Operand.WellFormed .target o ∧
    (legible → ∀ i, o = .cell i → Text.isWritable i = true)
  value v := -reach k ≤ v.toInt ∧ v.toInt ≤ reach k
  outside _ hm := ⟨Or.inl (Or.inl rfl), hm.succ, fun _ hk =>
    List.all_eq_true.mpr (List.forall_mem_singleton.mpr (hm.succ.ip_writable hk))⟩
  at_end hm := ⟨Or.inl (Or.inl rfl), hm.succ, fun _ hk =>
    List.all_eq_true.mpr (List.forall_mem_singleton.mpr (hm.succ.ip_writable hk))⟩
  untraceable hm hops hn hlong := by
    refine hm.unwritable (fun hp hk => hm.line_writable (fun o ho => ?_) hk _ hn) hlong
    exact (hops o ho).elim (fun hs => ⟨hs.1, hs.2 hp⟩) fun ht => ⟨ht.1.source, ht.2 hp⟩
  read_fault hm ho hf :=
    ho.elim (fun hs => hm.valueOf_fault hs.1 hs.2 hf) fun ht => hm.valueOf_fault ht.1.source ht.2 hf
  read_value hm ho hv := hm.taggedOf_within ho.1 hv
  word_value n := within_reach_of_inRange (Word.wrap_inRange n) k
  write_fault hm ho hf := hm.stored_fault ho.1 ho.2 hf
  write_register hm _ hv h := by
    obtain ⟨s, -, rfl⟩ := registerSet_eq_ok h
    exact hm.setRegister s hv
  write_cell hm _ h := by
    obtain ⟨c, -, rfl⟩ := cellSet_eq_ok h
    exact hm.setCell c _
  push n hm := hm.push n
  pop hm := hm.pop
  setIp index hm := hm.setIp index
  remainder hm _ := { hm with }
  flags _ _ hm := { hm with }
  printed _ hm := { hm with }
  unprintable hm ho hn hlong :=
    hm.unwritable (fun _ hk => hm.valueOf_writable ho.1 hn hk) hlong
  zero_divisor hm := ⟨Or.inl (Or.inl rfl), hm.succ, fun _ _ => rfl⟩
  zero_modulus hm := ⟨Or.inl (Or.inl rfl), hm.succ, fun _ _ => rfl⟩

/-- The programs within `safety` are the validated ones. -/
theorem safety_admitsProgram {p : Program} (h : p.validate = .ok ()) (l : Layout) (k : Nat) :
    (safety l p.Legible k).AdmitsProgram p := by
  intro ins hins hstop
  refine Discipline.admits_of_wellFormed (Program.wellFormed_of_validate h hins hstop) ?_
  rintro ⟨kind, o⟩ hx ho
  -- whatever its kind, the operand is one of the instruction
  have hlegible : p.Legible → ∀ i, o = .cell i → Text.isWritable i = true := by
    rintro hp i rfl
    exact hp ins hins i (List.of_mem_zip hx).2
  cases kind with
  | target => exact ⟨ho, hlegible⟩
  | source => exact ⟨ho, hlegible⟩

/-! ### Runs on a sound machine -/

section Runs

variable {l : Layout} {k : Nat} {p : Program} {s : Session}

/-- **While a run goes on, its machine is sound**, with no more failures than before. -/
theorem sound_after (hm : s.machine.Sound l k) (hp : p.validate = .ok ()) {n : Nat}
    (hr : (Run.after p n (Run.start p s)).status = .running) :
    (Run.after p n (Run.start p s)).session.machine.Sound l k :=
  ((safety l p.Legible k).after (.start hm p) (safety_admitsProgram hp l k) n).inv hr

/-- **The next line of a run can be written**, on a sound machine and for a program whose cells can
be written. -/
theorem writableNext_of_sound {r : Run} (hm : r.session.machine.Sound l k)
    (hp : p.validate = .ok ()) (hlegible : p.Legible)
    (hk : 2 * sizeLimit + k < Text.writableBound) : Run.WritableNext p r := by
  intro ins hins
  obtain ⟨-, hf, hstop⟩ := Run.upcoming?_eq_some_iff.mp hins
  have hmem := mem_of_fetch hf
  refine hm.line_writable (fun o ho => ?_) hk
  obtain ⟨kind, hkind⟩ := (Program.wellFormed_of_validate hp hmem hstop).operand ho
  refine ⟨((Program.wellFormed_of_validate hp hmem hstop).operands _ hkind).source, ?_⟩
  rintro i rfl
  exact hlegible ins hmem i ho

/-- **All lines of a run can be written**, if it starts on a sound machine. -/
theorem writableNext_after (hm : s.machine.Sound l k) (hp : p.validate = .ok ())
    (hlegible : p.Legible) (hk : 2 * sizeLimit + k < Text.writableBound) (n : Nat) :
    Run.WritableNext p (Run.after p n (Run.start p s)) := by
  intro ins hins
  have hr := (Run.upcoming?_eq_some_iff.mp hins).1
  exact writableNext_of_sound (sound_after hm hp hr) hp hlegible hk ins hins

end Runs

end CellMachine
