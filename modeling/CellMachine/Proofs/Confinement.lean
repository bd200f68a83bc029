import CellMachine.Proofs.Frames
import CellMachine.Proofs.Histories
import CellMachine.Proofs.StackRegion

/-!
# Confinement of the stack

The stack of a checked machine keeps to the top of the block, if no program writes the stack pointer
or the stack base by itself. The limit of the stack is computed from the stack base at each push,
and the cell is then written through another test, that of the block. Both agree as long as the
stack base is one past the block, and the invariant is that it is, with the stack pointer between
it and the floor of the region (`Machine.Confined`).

* `Machine.Confined.push_cases` and `pop_cases` are the two accesses to a confined stack. Either is
  made inside the region, or it is refused and changes nothing; the test of the block never fails.
* `confinement` is the discipline. A fault leaves the stack confined too, also where the stack
  pointer had moved before: a pop that cannot write its target has read a cell of the region, and a
  call that cannot read its target has written one.
* `Context.reached_stack_confined` puts this together for all that a host can do.
-/

namespace CellMachine

/-- A program leaves the stack pointer and the stack base to the instructions of the stack. -/
def Program.LeavesStack (p : Program) : Prop :=
  ∀ ins ∈ p.instructions, ¬ ins.Writes (.ofSlot Slot.sp) ∧ ¬ ins.Writes (.ofSlot Slot.bp)

instance (p : Program) : Decidable p.LeavesStack :=
  inferInstanceAs (Decidable (∀ ins ∈ p.instructions, _))

/-- The lowest cell of the region that a layout gives to the stack. -/
def Layout.stackFloor (l : Layout) : Int := l.machine.cellCount - l.stackSize / wordSize

/-- The fault is a bounds check of the stack. -/
def Fault.isStackCheck : Fault → Bool
  | .stackOverflow _ _ | .stackUnderflow _ => true
  | _ => false

/-- Another register than the stack pointer is set. -/
theorem RegisterFile.sp_set {s : Slot} (r : RegisterFile) (v : Value) (h : s ≠ Slot.sp) :
    (r.set s v).sp = r.sp :=
  congrArg Value.toInt (r.get_set_of_ne v h)

namespace Machine

/-- **A confined stack.** The stack base lies one past the block, and the stack pointer between it
and the floor of the region. -/
structure Confined (l : Layout) (m : Machine) : Prop where
  held : m.released = false
  checked : m.checked = true
  block : m.cellCount = l.machine.cellCount
  size : (m.cellCount : Int) ≤ sizeLimit
  stack : m.stackSize = l.stackSize
  floor : 0 ≤ l.stackFloor
  base : m.registers.bp = m.cellCount
  low : l.stackFloor ≤ m.registers.sp
  high : m.registers.sp ≤ m.cellCount

variable {l : Layout} {m m' : Machine} {ins : Instruction} {o : Operand} {fault : Fault}

/-- A register that is neither stack pointer nor stack base may be set to anything. -/
theorem Confined.setRegister (h : m.Confined l) {s : Slot} (v : Value) (hsp : s ≠ Slot.sp)
    (hbp : s ≠ Slot.bp) : Confined l { m with registers := m.registers.set s v } :=
  { h with
    base := (m.registers.bp_set v hbp).trans h.base
    low := le_of_le_of_eq h.low (m.registers.sp_set v hsp).symm
    high := le_of_eq_of_le (m.registers.sp_set v hsp) h.high }

/-- The instruction pointer is such a register. -/
theorem Confined.setIp (h : m.Confined l) (index : Int) : (m.setIp index).Confined l :=
  h.setRegister _ (by decide) (by decide)

/-- The stack pointer moves inside the region, or to its end. -/
theorem Confined.setSp (h : m.Confined l) {cell : Int} (hlow : l.stackFloor ≤ cell)
    (hhigh : cell ≤ m.cellCount) : (m.setSp cell).Confined l :=
  { h with
    base := (m.registers.bp_set _ (by decide)).trans h.base
    low := le_of_le_of_eq hlow (m.sp_setSp cell).symm
    high := le_of_eq_of_le (m.sp_setSp cell) hhigh }

/-! ### Accesses to a confined stack -/

/-- The limit that a push is tested against is the floor of the region. -/
theorem Confined.stackLimit_eq (h : m.Confined l) : m.stackLimit = l.stackFloor := by
  unfold stackLimit Layout.stackFloor
  rw [h.base, h.stack, h.block]

/-- The test of the block lets the region pass. -/
theorem Confined.locate_eq (h : m.Confined l) {i : Int} (hlow : l.stackFloor ≤ i)
    (hhigh : i < m.cellCount) (whenReleased : Fault) :
    m.locate whenReleased i = .ok i.toNat :=
  locate_of_held ⟨Int.le_trans h.floor hlow, hhigh⟩ h.held h.size whenReleased

/-- What is near to the region can be written. -/
theorem Confined.isWritable (h : m.Confined l) {i : Int} (hlow : -1 ≤ i) (hhigh : i ≤ m.cellCount) :
    Text.isWritable i = true :=
  isWritable_near_block h.size hlow hhigh

/-- **A push** writes the next cell of the region, or is refused and changes nothing. -/
theorem Confined.push_cases (h : m.Confined l) (v : Int) :
    (∃ c : Nat, l.stackFloor ≤ c ∧ (c : Int) < m.cellCount ∧ (c : Int) = m.registers.sp - 1 ∧
      push v m = .ok () (m.pushed v c)) ∨
    (push v m = .error (.stackOverflow (m.registers.sp - 1) l.stackFloor) m ∧
      (Fault.stackOverflow (m.registers.sp - 1) l.stackFloor).isTold = true) := by
  have hlow := h.low
  have hhigh := h.high
  have hfloor := h.floor
  rw [push_eq, h.stackLimit_eq]
  by_cases hlimit : m.registers.sp - 1 < l.stackFloor
  · right
    rw [if_pos ⟨h.checked, hlimit⟩]
    refine ⟨rfl, List.all_eq_true.mpr ?_⟩
    exact List.forall_mem_cons.mpr ⟨h.isWritable (by omega) (by omega),
      List.forall_mem_singleton.mpr (h.isWritable (by omega) (by omega))⟩
  · left
    rw [if_neg fun hc => hlimit hc.2]
    have hcell : ((m.registers.sp - 1).toNat : Int) = m.registers.sp - 1 :=
      Int.toNat_of_nonneg (by omega)
    refine ⟨(m.registers.sp - 1).toNat, by omega, by omega, hcell, ?_⟩
    -- the cell was found before the stack pointer moved, and is found after it
    unfold cellSet
    rw [locate_setSp, h.locate_eq (by omega) (by omega)]
    rfl

/-- **A pop** reads a cell of the region, or is refused and changes nothing. -/
theorem Confined.pop_cases (h : m.Confined l) :
    (∃ c : Nat, l.stackFloor ≤ c ∧ (c : Int) < m.cellCount ∧ (c : Int) = m.registers.sp ∧
      pop m = .ok (m.cells.get c) (m.setSp (m.registers.sp + 1))) ∨
    (pop m = .error (.stackUnderflow m.registers.sp) m ∧
      (Fault.stackUnderflow m.registers.sp).isTold = true) := by
  have hlow := h.low
  have hhigh := h.high
  have hfloor := h.floor
  rw [pop_eq, h.base]
  by_cases hlimit : (m.cellCount : Int) ≤ m.registers.sp
  · right
    rw [if_pos ⟨h.checked, hlimit⟩]
    refine ⟨rfl, List.all_eq_true.mpr ?_⟩
    exact List.forall_mem_singleton.mpr (h.isWritable (by omega) hhigh)
  · left
    rw [if_neg fun hc => hlimit hc.2]
    have hcell : (m.registers.sp.toNat : Int) = m.registers.sp := Int.toNat_of_nonneg (by omega)
    refine ⟨m.registers.sp.toNat, by omega, by omega, hcell, ?_⟩
    unfold cellAt
    rw [h.locate_eq hlow (by omega)]
    rfl

/-! ### Faults of an access through an operand -/

/-- A bounds check that fails on a cell names the index of the cell. -/
theorem locate_fault {whenReleased : Fault} {i : Int} (hw : whenReleased.isBoundsCheck = false)
    (h : m.locate whenReleased i = .error fault) :
    fault.isBoundsCheck = false ∨ ∃ count, fault = .outsideBlock i count := by
  rcases locate_eq_error h with ⟨-, -, rfl⟩ | ⟨-, rfl⟩ | ⟨-, -, rfl⟩ | ⟨-, -, rfl⟩
  · exact Or.inr ⟨_, rfl⟩
  · exact Or.inl hw
  · exact Or.inl rfl
  · exact Or.inl rfl

/-- No bounds check fails on a register. -/
theorem slot_fault {missing : Fault} {i : Int} (hm : missing.isBoundsCheck = false)
    (h : slot missing i = .error fault) : fault.isBoundsCheck = false := by
  rcases slot_eq_error h with rfl | rfl
  · rfl
  · exact hm

/-- An operand that fails a bounds check when it is read is a cell outside the block. -/
theorem valueOf_fault (h : m.valueOf o = .error fault) :
    fault.isBoundsCheck = false ∨ ∃ i count, fault = .outsideBlock i count ∧ o = .cell i := by
  rcases valueOf_eq_error h with ⟨i, rfl, hs⟩ | ⟨i, rfl, hl⟩ | ⟨name, rfl, rfl⟩
  · exact Or.inl (slot_fault rfl hs)
  · exact (locate_fault rfl hl).imp_right fun ⟨count, hf⟩ => ⟨i, count, hf, rfl⟩
  · exact Or.inl rfl

/-- An operand that fails a bounds check when it is written is a cell outside the block. -/
theorem stored_fault {v : Int} (h : m.stored o v = .error fault) :
    fault.isBoundsCheck = false ∨ ∃ i count, fault = .outsideBlock i count ∧ o = .cell i := by
  rcases stored_eq_error h with ⟨i, rfl, hs⟩ | ⟨i, rfl, hl⟩ | ⟨-, rfl⟩
  · exact Or.inl (slot_fault rfl hs)
  · exact (locate_fault rfl hl).imp_right fun ⟨count, hf⟩ => ⟨i, count, hf, rfl⟩
  · exact Or.inl rfl

end Machine

open Machine

/-- **Why a confined machine stops.** A bounds check fails only for an operand that is a cell outside
the block, or because the stack is full or empty, which is told. -/
def Fault.TracedTo (named : Operand → Prop) (fault : Fault) : Prop :=
  fault.isBoundsCheck = false ∨ (∃ i count, fault = .outsideBlock i count ∧ named (.cell i)) ∨
    fault.isStackCheck = true ∧ fault.isTold = true

/-- A fault at an operand is traced to it. -/
theorem Fault.tracedTo_of_operand {named : Operand → Prop} {o : Operand} {fault : Fault}
    (ho : named o)
    (h : fault.isBoundsCheck = false ∨ ∃ i count, fault = .outsideBlock i count ∧ o = .cell i) :
    fault.TracedTo named := by
  rcases h with hf | ⟨i, count, hf, rfl⟩
  · exact Or.inl hf
  · exact Or.inr (Or.inl ⟨i, count, hf, ho⟩)

/-- Instructions that do not write the stack pointer or the stack base keep the stack confined. The
operands are named, so that a fault can be traced back to one of them. -/
def confinement (l : Layout) (named : Operand → Prop) : Discipline where
  inv m := m.Confined l
  fault fault m := m.Confined l ∧ fault.TracedTo named
  source o := named o
  target o := Operand.WellFormed .target o ∧ o ≠ .ofSlot Slot.sp ∧ o ≠ .ofSlot Slot.bp ∧ named o
  value _ := True
  outside _ hm := ⟨hm, Or.inl rfl⟩
  at_end hm := ⟨hm, Or.inl rfl⟩
  untraceable hm _ _ _ := ⟨hm, Or.inl rfl⟩
  read_fault hm ho hf :=
    ⟨hm, Fault.tracedTo_of_operand (ho.elim id fun ht => ht.2.2.2) (valueOf_fault hf)⟩
  read_value _ _ _ := trivial
  word_value _ := trivial
  write_fault hm ho hf := ⟨hm, Fault.tracedTo_of_operand ho.2.2.2 (stored_fault hf)⟩
  write_register {m m' i v} hm ho _ h := by
    obtain ⟨s, hs, rfl⟩ := registerSet_eq_ok h
    obtain ⟨hi, hsp, hbp, -⟩ := ho
    rw [register_eq_ofSlot hi hs] at hsp hbp
    refine hm.setRegister v ?_ ?_
    · rintro rfl
      exact hsp rfl
    · rintro rfl
      exact hbp rfl
  write_cell hm _ h := by
    obtain ⟨c, -, rfl⟩ := cellSet_eq_ok h
    exact { hm with }
  push n hm := by
    unfold Exec.Ends
    rcases hm.push_cases n with ⟨c, hlow, hhigh, hc, hpush⟩ | ⟨hpush, htold⟩
    · rw [hpush]
      have hmoved := hm.setSp (hc ▸ hlow) (Int.le_of_lt (hc ▸ hhigh))
      exact { hmoved with }
    · rw [hpush]
      exact ⟨hm, Or.inr (Or.inr ⟨rfl, htold⟩)⟩
  pop {m} hm := by
    unfold Exec.Ends
    rcases hm.pop_cases with ⟨c, hlow, hhigh, hc, hpop⟩ | ⟨hpop, htold⟩
    · rw [hpop]
      have hlow' : l.stackFloor ≤ m.registers.sp := hm.low
      exact hm.setSp (by omega) (by omega)
    · rw [hpop]
      exact ⟨hm, Or.inr (Or.inr ⟨rfl, htold⟩)⟩
  setIp index hm := hm.setIp index
  remainder hm _ := { hm with }
  flags _ _ hm := { hm with }
  printed _ hm := { hm with }
  unprintable hm _ _ _ := ⟨hm, Or.inl rfl⟩
  zero_divisor hm := ⟨hm, Or.inl rfl⟩
  zero_modulus hm := ⟨hm, Or.inl rfl⟩

theorem confinement_admits {l : Layout} {named : Operand → Prop} {ins : Instruction}
    (hins : ins.WellFormed)
    (hstack : ¬ ins.Writes (.ofSlot Slot.sp) ∧ ¬ ins.Writes (.ofSlot Slot.bp))
    (hnamed : ∀ o ∈ ins.operands, named o) : (confinement l named).Admits ins := by
  refine Discipline.admits_of_wellFormed hins ?_
  rintro ⟨kind, o⟩ hx ho
  have hname : named o := hnamed o (List.of_mem_zip hx).2
  cases kind with
  | source => exact hname
  | target =>
    refine ⟨ho, ?_, ?_, hname⟩
    · rintro rfl
      exact hstack.1 hx
    · rintro rfl
      exact hstack.2 hx

/-- Validated programs that leave the stack registers alone are admitted. -/
theorem confinement_admitsProgram {p : Program} (hp : p.validate = .ok ()) (hstack : p.LeavesStack)
    (l : Layout) : (confinement l fun _ => True).AdmitsProgram p := by
  intro ins hins hstop
  have hwf := Program.wellFormed_of_validate hp hins hstop
  exact confinement_admits hwf (hstack ins hins) fun _ _ => trivial

/-- The machine of a fresh checked context is confined. -/
theorem Layout.machine_confined {l : Layout} {c : Context} (hl : l.checked = true)
    (h : Context.create l = .ok c) : l.machine.Confined l := by
  obtain ⟨hstack, hmemory, -, -⟩ := Context.create_eq_ok h
  have hcount : (l.machine.cellCount : Int) = l.memorySize / wordSize := by
    have hnonneg : 0 ≤ l.memorySize / wordSize := by
      unfold wordSize
      omega
    exact Int.toNat_of_nonneg hnonneg
  have hfloor : 0 ≤ l.stackFloor ∧ l.stackFloor ≤ l.machine.cellCount := by
    unfold stackFloor
    rw [hcount]
    unfold wordSize
    omega
  exact
    { held := rfl
      checked := hl
      block := rfl
      size := by
        rw [hcount]
        unfold wordSize
        omega
      stack := rfl
      floor := hfloor.1
      base := rfl
      low := hfloor.2
      high := Int.le_refl _ }

/-! ### Instructions on a confined stack -/

namespace Machine

variable {l : Layout} {m m' : Machine} {ins : Instruction} {fault : Fault}

/-- **An instruction has kept to the region.** What was pushed is in a cell of it, what was popped
came from one, and a cell below has changed only as the target of the instruction. -/
structure StackKept (l : Layout) (ins : Instruction) (m m' : Machine) : Prop where
  confined : m'.Confined l
  pushed : ins.opcode.stackDelta = 1 → ∃ c : Nat, l.stackFloor ≤ c ∧ (c : Int) < m.cellCount ∧
    m'.registers.sp = c ∧ ∀ d, d ≠ c → m'.cells.get d = m.cells.get d
  popped : ins.opcode.stackDelta = -1 →
    l.stackFloor ≤ m.registers.sp ∧ m.registers.sp < m.cellCount
  below : ∀ c : Nat, (c : Int) < l.stackFloor →
    m'.cells.get c = m.cells.get c ∨ ins.Writes (.cell c)

/-- **An instruction that fails has kept to the region.** If the stack was full or empty, nothing
has changed; a cell below the region has not in any case. -/
structure StackSpared (l : Layout) (ins : Instruction) (fault : Fault) (m m' : Machine) : Prop where
  confined : m'.Confined l
  reason : fault.TracedTo (· ∈ ins.operands)
  unchanged : fault.isStackCheck = true → m' = m
  below : ∀ c : Nat, (c : Int) < l.stackFloor → m'.cells.get c = m.cells.get c

/-- A fault of an operand is none of the stack. -/
theorem isStackCheck_eq_false {P : Int → Prop}
    (h : fault.isBoundsCheck = false ∨ ∃ i count, fault = .outsideBlock i count ∧ P i) :
    fault.isStackCheck = false := by
  rcases h with h | ⟨i, count, rfl, -⟩
  · cases fault with
    | stackOverflow cell limit => cases h
    | stackUnderflow cell => cases h
    | _ => rfl
  · rfl

/-- The stack tests come first: an instruction that they stop has changed nothing. -/
theorem Spoilt.eq_of_isStackCheck (h : m.Spoilt ins fault m') (hf : fault.isStackCheck = true) :
    m' = m := by
  -- in every other case the fault is one of an operand, or of the cell that was pushed to
  have hoperand : fault.isStackCheck = false → m' = m := by
    intro hfalse
    rw [hf] at hfalse
    cases hfalse
  cases h with
  | nothing => rfl
  | push hop hc =>
    refine hoperand (isStackCheck_eq_false (P := fun _ => True) ?_)
    exact (locate_fault rfl hc).imp_right fun ⟨count, hcount⟩ => ⟨_, count, hcount, trivial⟩
  | pop hop hstore => exact hoperand (isStackCheck_eq_false (stored_fault hstore))
  | call hop ho hc hload => exact hoperand (isStackCheck_eq_false (valueOf_fault hload))

variable (h : m.Confined l) (hins : ins.WellFormed)
  (hstack : ¬ ins.Writes (.ofSlot Slot.sp) ∧ ¬ ins.Writes (.ofSlot Slot.bp))

include h hins hstack

theorem Confined.stackKept (hx : execute ins.opcode ins.operands m = .ok () m') :
    StackKept l ins m m' := by
  have hconfined : m'.Confined l :=
    (Discipline.execute h (confinement_admits hins hstack fun _ ho => ho)).ok hx
  have heffect : m.Effect ins m' := (execute_ends m ins).ok hx
  have hsp : m'.registers.sp = m.registers.sp - ins.opcode.stackDelta :=
    heffect.sp_eq hins hstack.1
  have hlow := hconfined.low
  have hhigh := h.high
  have hfloor := h.floor
  -- after a push the stack pointer is at the cell that was pushed to
  have htop : ins.opcode.stackDelta = 1 →
      m'.registers.sp % m.cellCount = m'.registers.sp := by
    intro hdelta
    exact Int.emod_eq_of_lt (by omega) (by omega)
  refine ⟨hconfined, fun hdelta => ?_, fun hdelta => ?_, fun c hc => ?_⟩
  · have hcell : (m'.registers.sp.toNat : Int) = m'.registers.sp :=
      Int.toNat_of_nonneg (by omega)
    refine ⟨m'.registers.sp.toNat, by omega, by omega, hcell.symm, fun d hd => ?_⟩
    rcases heffect.cell_cases hins d with hsame | hwrites | ⟨-, hd'⟩
    · exact hsame
    · exact absurd hdelta hwrites.stackDelta_ne
    · rw [htop hdelta] at hd'
      omega
  · have hhigh' := hconfined.high
    rw [heffect.block_eq.1] at hhigh'
    exact ⟨h.low, by omega⟩
  · rcases heffect.cell_cases hins c with hsame | hwrites | ⟨hdelta, hc'⟩
    · exact Or.inl hsame
    · exact Or.inr hwrites
    · rw [htop hdelta] at hc'
      omega

theorem Confined.stackSpared (hx : execute ins.opcode ins.operands m = .error fault m') :
    StackSpared l ins fault m m' := by
  obtain ⟨hconfined, hreason⟩ :=
    (Discipline.execute h (confinement_admits hins hstack fun _ ho => ho)).error hx
  have hspoilt : m.Spoilt ins fault m' := (execute_ends m ins).error hx
  refine ⟨hconfined, hreason, hspoilt.eq_of_isStackCheck, fun c hc => ?_⟩
  cases hspoilt with
  | nothing => rfl
  | push hop hlocate => rfl
  | pop hop hstore => rfl
  | call hop ho hlocate hload =>
    -- the call has pushed to a cell of the region
    rcases m.pushed_cell_cases m.registers.ip hlocate with hsame | ⟨hc', -⟩
    · exact hsame
    · have hlow := hconfined.low
      have hhigh := h.high
      have hfloor := h.floor
      rw [sp_pushed] at hlow
      rw [Int.emod_eq_of_lt (by omega) (by omega)] at hc'
      omega

end Machine

/-! ### Histories -/

namespace Context

/-- The program of a context leaves the stack to the instructions of the stack. -/
def LeavesStack (c : Context) : Prop := ∀ p, c.program = some p → p.LeavesStack

/-- **The stack is confined.** On a checked context whose programs write neither the stack pointer
nor the stack base, and whatever was done with it and has failed, the stack base lies one past the
block and the stack pointer between it and the floor of the region. So a push and a pop are made
inside the region or refused, and no instruction changes a cell below the region that is not its
target. -/
theorem reached_stack_confined {l : Layout} {c : Context} (hl : l.checked = true)
    (h : Reached l (fun _ => LeavesStack) c) (hc : c.LeavesStack) :
    ∃ m p, c.machine = some m ∧ c.program = some p ∧ m.Confined l ∧
      (∀ v, (∃ d : Nat, l.stackFloor ≤ d ∧ (d : Int) < m.cellCount ∧
          (d : Int) = m.registers.sp - 1 ∧ push v m = .ok () (m.pushed v d)) ∨
        (push v m = .error (.stackOverflow (m.registers.sp - 1) l.stackFloor) m ∧
          (Fault.stackOverflow (m.registers.sp - 1) l.stackFloor).isTold = true)) ∧
      ((∃ d : Nat, l.stackFloor ≤ d ∧ (d : Int) < m.cellCount ∧ (d : Int) = m.registers.sp ∧
          pop m = .ok (m.cells.get d) (m.setSp (m.registers.sp + 1))) ∨
        (pop m = .error (.stackUnderflow m.registers.sp) m ∧
          (Fault.stackUnderflow m.registers.sp).isTold = true)) ∧
      ∀ ins ∈ p.instructions, ins.opcode ≠ .stop →
        match execute ins.opcode ins.operands m with
        | .ok () m' => StackKept l ins m m'
        | .error fault m' => StackSpared l ins fault m m' := by
  obtain ⟨p, s, rfl, hp⟩ := h.eq_ofSession
  have hinv : ∃ m, (ofSession p s).machine = some m ∧ m.Confined l :=
    h.inv (D := confinement l fun _ => True)
      (fun _ hcreate => Layout.machine_confined hl hcreate)
      (fun _ q _ hq hvalid => confinement_admitsProgram hvalid (hq q rfl) l)
      -- a failure leaves the stack confined, so the history may go on after it
      (fun _ _ _ _ _ _ _ _ hf => hf.1)
  obtain ⟨m, hm, hconfined⟩ := hinv
  refine ⟨m, p, hm, rfl, hconfined, hconfined.push_cases, hconfined.pop_cases, ?_⟩
  intro ins hins hstop
  have hwf := Program.wellFormed_of_validate hp hins hstop
  cases hx : execute ins.opcode ins.operands m with
  | ok a m' => exact hconfined.stackKept hwf (hc p rfl ins hins) hx
  | error fault m' => exact hconfined.stackSpared hwf (hc p rfl ins hins) hx

/-- A program that pops to a cell outside the block. -/
def lostPop : Program :=
  .make #[⟨.push, [.immediate 1]⟩, ⟨.pop, [.cell 99]⟩] 0 .empty .empty

/-- The pop fails after the stack pointer has moved, and the stack is still confined. When another
program has filled it, a push is refused and changes nothing. -/
theorem lostPop_stack_confined :
    ∃ c m, Reached ⟨64, 16, true⟩ (fun _ => LeavesStack) c ∧ c.machine = some m ∧
      m.registers.sp = 12 ∧ m.Confined ⟨64, 16, true⟩ ∧
      ∀ v, push v m = .error (.stackOverflow 11 12) m := by
  obtain ⟨c₀, hc₀⟩ : ∃ c₀, create ⟨64, 16, true⟩ = .ok c₀ := ⟨_, rfl⟩
  have hleaves : ∀ {c : Context} {p : Program}, c.program = some p → p.LeavesStack →
      c.LeavesStack := by
    intro c p hp hleaves q hq
    obtain rfl := Option.some.inj (hp.symm.trans hq)
    exact hleaves
  obtain rfl := Except.ok.inj hc₀
  have hstart : Reached ⟨64, 16, true⟩ (fun _ => LeavesStack) _ := .create hc₀
  -- both runs fail: one at its pop, the other at its fifth push
  have hlost := (hstart.perform (.load lostPop) (hleaves (p := .empty) rfl (by decide))).perform
    (.run 2) (hleaves (p := lostPop) rfl (by decide))
  have hfull := (hlost.perform (.load pushLoop) (hleaves (p := lostPop) rfl (by decide))).perform
    (.run 9) (hleaves (p := pushLoop) rfl (by decide))
  obtain ⟨m, p, hm, -, hconfined, hpush, -, -⟩ :=
    reached_stack_confined rfl hfull (hleaves (p := pushLoop) rfl (by decide))
  have hsp : m.registers.sp = 12 := by
    obtain rfl := Option.some.inj hm
    rfl
  refine ⟨_, m, hfull, hm, hsp, hconfined, fun v => ?_⟩
  rcases hpush v with ⟨d, hlow, -, hd, -⟩ | ⟨hrefused, -⟩
  · -- there is no cell of the region below the stack pointer
    change (12 : Int) ≤ d at hlow
    omega
  · rw [hsp] at hrefused
    exact hrefused

end Context

end CellMachine
