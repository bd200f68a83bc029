import CellMachine.Proofs.BoundsChecks

/-!
# Accesses that fail

A host that uses the memory of a checked machine reads and writes cells and puts numbers on the
stack and takes them off. An access that fails a bounds check should leave no trace. It leaves none
where the check comes before the change, and that is so in all accesses but one: a push tests the
stack region, moves the stack pointer, and only then tests the block.

* `MemoryOperation.perform_error_cases` is what a failed access leaves, on any machine.
* `Machine.Strays` says when the two tests of a push come apart. The stack region reaches down from
  the stack base, wherever that is, so a cell can be in the region and not in the block.
* `failed_access_unchanged_iff` is the consequence. A fault of access leaves the machine as it was
  exactly if the next push does not stray, or strays so far that its fault cannot be told.
-/

namespace CellMachine

/-- What a host does with the memory of a machine. -/
inductive MemoryOperation where
  | read (i : Int)
  | write (i v : Int)
  | push (v : Int)
  | pop
  deriving DecidableEq, Repr

/-- The operation on a machine. Reading and popping have an answer. -/
def MemoryOperation.perform : MemoryOperation → Exec (Option Int)
  | .read i => do return some (← Machine.readCell i)
  | .write i v => do
    Machine.writeCell i v
    return none
  | .push v => do
    Machine.push v
    return none
  | .pop => do return some (← Machine.pop)

namespace Machine

variable {m m' : Machine} {fault : Fault}

/-- The next push goes to a cell of the stack region that is not in the block. -/
def Strays (m : Machine) : Prop :=
  m.stackLimit ≤ m.registers.sp - 1 ∧
    ¬ (0 ≤ m.registers.sp - 1 ∧ m.registers.sp - 1 < m.cellCount)

instance (m : Machine) : Decidable m.Strays := inferInstanceAs (Decidable (_ ∧ _))

theorem setSp_pred_ne (m : Machine) : m.setSp (m.registers.sp - 1) ≠ m := by
  intro h
  have hsp : (m.setSp (m.registers.sp - 1)).registers.sp = m.registers.sp - 1 :=
    congrArg Value.toInt (m.registers.get_set_self Slot.sp _)
  rw [h] at hsp
  omega

/-- What comes after an operation of the machine does not fail, so a failure is that of the
operation. -/
theorem error_of_bind_pure {α β : Type} {x : Exec α} {f : α → β}
    (h : (do return f (← x) : Exec β) m = .error fault m') : x m = .error fault m' := by
  rw [Exec.bind_apply] at h
  cases hx : x m with
  | ok a m'' =>
    rw [hx] at h
    cases h
  | error fault' m'' =>
    rw [hx] at h
    obtain ⟨rfl, rfl⟩ := EStateM.Result.error.inj h
    rfl

/-- Reading leaves the machine as it is. -/
theorem eq_of_readCell_error {i : Int} (h : readCell i m = .error fault m') : m' = m := by
  rw [readCell_eq] at h
  cases hcell : m.cellAt i with
  | ok v =>
    rw [hcell] at h
    cases h
  | error fault' =>
    rw [hcell] at h
    exact (EStateM.Result.error.inj h).2.symm

theorem settle_cellSet_error {i v : Int} (h : m.settle (m.cellSet i v) = .error fault m') :
    m' = m ∧ m.locate .releasedWrite i = .error fault := by
  cases hcell : m.cellSet i v with
  | ok m'' =>
    rw [hcell] at h
    cases h
  | error fault' =>
    rw [hcell] at h
    obtain ⟨rfl, rfl⟩ := EStateM.Result.error.inj h
    exact ⟨rfl, cellSet_eq_error hcell⟩

/-- Writing finds the cell before it changes it. -/
theorem eq_of_writeCell_error {i v : Int} (h : writeCell i v m = .error fault m') : m' = m := by
  rw [writeCell_eq] at h
  exact (settle_cellSet_error h).1

/-- Popping reads the cell before it moves the stack pointer. -/
theorem eq_of_pop_error (h : pop m = .error fault m') : m' = m := by
  rw [pop_eq] at h
  split at h
  · exact (EStateM.Result.error.inj h).2.symm
  · cases hcell : m.cellAt m.registers.sp with
    | ok v =>
      rw [hcell] at h
      cases h
    | error fault' =>
      rw [hcell] at h
      exact (EStateM.Result.error.inj h).2.symm

/-- **A push that fails** has failed at the stack region, with the machine as it was, or at its
cell, with the stack pointer moved. -/
theorem push_error_cases {v : Int} (h : push v m = .error fault m') :
    m' = m ∨ ¬ (m.checked = true ∧ m.registers.sp - 1 < m.stackLimit) ∧
      m.locate .releasedWrite (m.registers.sp - 1) = .error fault ∧
      m' = m.setSp (m.registers.sp - 1) := by
  rw [push_eq] at h
  split at h
  · exact Or.inl (EStateM.Result.error.inj h).2.symm
  · next hlimit =>
    obtain ⟨hm', hlocate⟩ := settle_cellSet_error h
    -- the stack pointer has no part in finding the cell
    rw [locate_setSp] at hlocate
    exact Or.inr ⟨hlimit, hlocate, hm'⟩

/-- A stray push fails at its cell. -/
theorem push_of_strays (hchecked : m.checked = true) (h : m.Strays) (v : Int) :
    push v m = .error (.outsideBlock (m.registers.sp - 1) m.cellCount)
      (m.setSp (m.registers.sp - 1)) := by
  have hlocate : (m.setSp (m.registers.sp - 1)).locate .releasedWrite (m.registers.sp - 1) =
      .error (.outsideBlock (m.registers.sp - 1) m.cellCount) := by
    rw [locate_setSp, locate, if_pos ⟨hchecked, h.2⟩]
  rw [push_eq, if_neg fun hlimit => Int.not_lt.mpr h.1 hlimit.2, cellSet, hlocate]
  rfl

end Machine

open Machine

variable {m m' : Machine} {op : MemoryOperation} {fault : Fault}

/-- **A failed access** leaves the machine as it was, unless it is a push that has passed the test
of the stack region. -/
theorem MemoryOperation.perform_error_cases (h : op.perform m = .error fault m') :
    m' = m ∨ (∃ v, op = .push v) ∧
      ¬ (m.checked = true ∧ m.registers.sp - 1 < m.stackLimit) ∧
      m.locate .releasedWrite (m.registers.sp - 1) = .error fault ∧
      m' = m.setSp (m.registers.sp - 1) := by
  cases op with
  | read i => exact Or.inl (eq_of_readCell_error (error_of_bind_pure h))
  | write i v => exact Or.inl (eq_of_writeCell_error (error_of_bind_pure h))
  | pop => exact Or.inl (eq_of_pop_error (error_of_bind_pure h))
  | push v =>
    exact (push_error_cases (error_of_bind_pure h)).imp_right fun hcell => ⟨⟨v, rfl⟩, hcell⟩

/-- On a checked machine that holds its block, such a push strays. -/
theorem MemoryOperation.strays_of_error (hchecked : m.checked = true) (hheld : m.released = false)
    (h : op.perform m = .error fault m') (hbounds : fault.isBoundsCheck = true) (hne : m' ≠ m) :
    (∃ v, op = .push v) ∧ m.Strays ∧ fault = .outsideBlock (m.registers.sp - 1) m.cellCount ∧
      m' = m.setSp (m.registers.sp - 1) := by
  obtain ⟨hpush, hlimit, hlocate, hm'⟩ := (perform_error_cases h).resolve_left hne
  have hregion : m.stackLimit ≤ m.registers.sp - 1 :=
    Int.not_lt.mp fun hlow => hlimit ⟨hchecked, hlow⟩
  rcases locate_eq_error hlocate with ⟨-, hblock, rfl⟩ | ⟨hreleased, -⟩ | ⟨-, -, rfl⟩ | ⟨-, -, rfl⟩
  · exact ⟨hpush, ⟨hregion, hblock⟩, rfl, hm'⟩
  · rw [hheld] at hreleased
    cases hreleased
  · cases hbounds
  · cases hbounds

/-- **A failed access leaves a checked machine as it was**, with one exception. Reading, writing and
popping always do. A push does exactly if its cell is not one of the stack region outside the block;
then it fails with the stack pointer moved and everything else as it was. -/
theorem failed_access_unchanged_iff (hchecked : m.checked = true) (hheld : m.released = false) :
    ((∀ op fault m', MemoryOperation.perform op m = .error fault m' → fault.isAccess = true →
        m' = m) ↔
      (m.Strays → Text.isWritable (m.registers.sp - 1) = false)) ∧
    ∀ op fault m', MemoryOperation.perform op m = .error fault m' → fault.isBoundsCheck = true →
      m' ≠ m →
        (∃ v, op = .push v) ∧ m.Strays ∧
          fault = .outsideBlock (m.registers.sp - 1) m.cellCount ∧
          m' = m.setSp (m.registers.sp - 1) := by
  refine ⟨⟨fun hkept hstrays => ?_, fun hfar op fault m' h haccess => ?_⟩,
    fun op fault m' h hbounds hne => op.strays_of_error hchecked hheld h hbounds hne⟩
  · -- a stray push that can be told would have left the machine as it was
    cases hwritable : Text.isWritable (m.registers.sp - 1) with
    | false => rfl
    | true =>
      have hpush : (MemoryOperation.push 0).perform m =
          .error (.outsideBlock (m.registers.sp - 1) m.cellCount)
            (m.setSp (m.registers.sp - 1)) := by
        show (push 0 >>= fun _ => pure none) m = _
        rw [Exec.bind_apply, push_of_strays hchecked hstrays]
      refine absurd (hkept _ _ _ hpush ?_) m.setSp_pred_ne
      simp [Fault.isAccess, Fault.isBoundsCheck, Fault.isTold, Fault.numbers, hwritable]
  · -- what has changed comes from a stray push, and its fault is no fault of access
    obtain ⟨hbounds, htold⟩ : fault.isBoundsCheck = true ∧ fault.isTold = true := by
      rwa [Fault.isAccess, Bool.and_eq_true] at haccess
    refine Classical.byContradiction fun hne => ?_
    obtain ⟨-, hstrays, rfl, -⟩ := op.strays_of_error hchecked hheld h hbounds hne
    have hwritable : Text.isWritable (m.registers.sp - 1) = true := by
      simpa [Fault.isTold, Fault.numbers] using htold
    rw [hfar hstrays] at hwritable
    cases hwritable

/-- A checked machine of sixteen cells, the upper four of which are its stack. -/
def quarterStack : Machine := ({ cellCount := 16, checked := true } : Machine).createStack 16

/-- With the stack inside the block, the empty stack refuses a pop and stays as it is. -/
theorem quarterStack_unchanged :
    (∀ op fault m', MemoryOperation.perform op quarterStack = .error fault m' →
      fault.isAccess = true → m' = quarterStack) ∧
    MemoryOperation.pop.perform quarterStack = .error (.stackUnderflow 16) quarterStack :=
  ⟨(failed_access_unchanged_iff rfl rfl).1.mpr fun h => absurd h (by decide), rfl⟩

/-- The same machine with its stack pointer and its stack base set to a cell far above the block. -/
def strayStack : Machine :=
  { quarterStack with registers := (quarterStack.registers.setBp 1000).setSp 1000 }

/-- The exception is real: the push is refused for its cell, and the stack pointer has moved. -/
theorem stray_push_moves :
    strayStack.checked = true ∧ strayStack.released = false ∧
    ¬ ∀ op fault m', MemoryOperation.perform op strayStack = .error fault m' →
      fault.isAccess = true → m'.registers = strayStack.registers := by
  refine ⟨rfl, rfl, fun hkept => ?_⟩
  have hpush : (MemoryOperation.push 7).perform strayStack =
      .error (.outsideBlock 999 16) (strayStack.setSp 999) := rfl
  have hregisters := hkept _ _ _ hpush (by decide +kernel)
  exact absurd (congrArg RegisterFile.sp hregisters) (by decide)

end CellMachine
