import CellMachine.Proofs.BoundsChecks
import CellMachine.Proofs.FaultSafety

/-!
# The stack region

The stack of a layout takes the top of the block, so its region is fixed when the machine is
created. A checked machine does not test a push or a pop against that region but against the stack
base, which is a register like any other. The two tests are the same for as long as the stack base
is where it was put, one past the block (`Machine.stackAllows_of_base`).

For a program that moves the stack base they differ. A function that saves the stack base, sets it
to the stack pointer and restores it at its end stays in the region all the time; yet the pop that
restores the stack base is refused, because at that moment the stack ends there (`framed_refused`).
So a run in range is not the same on a checked machine as on an unchecked one without more. It is
the same exactly if the test from the stack base lets every instruction pass, and in particular if
no instruction writes the stack base (`in_range_run_unchanged_iff`).
-/

namespace CellMachine

/-- The stack base as an operand. -/
def Operand.base : Operand := .register (Slot.bp.val : Nat)

namespace Machine

/-! ### In range -/

/-- The cell that an instruction pushes to or pops from lies in the region of the stack. -/
def StaysInRegion (m : Machine) (opcode : Opcode) : Prop :=
  ∀ i ∈ m.stackCell? opcode, (m.cellCount : Int) - m.stackSize / wordSize ≤ i ∧ i < m.cellCount

/-- An instruction is in range: it touches cells of the block only, and the stack only in its
region. -/
def InRange (m : Machine) (ins : Instruction) : Prop :=
  m.StaysInBlock ins ∧ m.StaysInRegion ins.opcode

instance (m : Machine) (ins : Instruction) : Decidable (m.InRange ins) :=
  inferInstanceAs (Decidable ((∀ i ∈ _, _) ∧ ∀ i ∈ m.stackCell? ins.opcode, _))

variable {m : Machine} {ins : Instruction}

/-- While the stack base is one past the block, the test from it is a test of the region. -/
theorem stackAllows_of_base (hbase : m.registers.bp = m.cellCount) {opcode : Opcode}
    (h : m.StaysInRegion opcode) : m.StackAllows opcode := by
  have hpush : (m.cellCount : Int) - m.stackSize / wordSize ≤ m.registers.sp - 1 →
      m.stackLimit ≤ m.registers.sp - 1 := by
    unfold stackLimit
    rw [hbase]
    exact id
  have hpop : m.registers.sp < m.cellCount → m.registers.sp < m.registers.bp := by
    rw [hbase]
    exact id
  -- the region has a lower end for pushes and an upper end for pops
  cases opcode with
  | push | pushf | call => exact hpush (h _ rfl).1
  | pop | popf | ret => exact hpop (h _ rfl).2
  | _ => trivial

/-! ### Refusal -/

/-- An action is refused on the checked copy of a machine: it ends in a failed bounds check. -/
def Refused {α : Type} (x : Exec α) (m : Machine) : Prop :=
  Exec.Ends x (m.withChecks true) (fun _ _ => False) fun fault _ => fault.isBoundsCheck = true

theorem Refused.bind {α β : Type} {x : Exec α} (h : Refused x m) (f : α → Exec β) :
    Refused (x >>= f) m :=
  Exec.Ends.bind h fun _ _ hfalse => hfalse.elim

theorem Refused.get_bind {α : Type} {f : Machine → Exec α} (h : Refused (f (m.withChecks true)) m) :
    Refused (get >>= f) m := by
  unfold Refused Exec.Ends at h ⊢
  rw [Exec.bind_apply, Exec.get_apply]
  exact h

theorem push_refused (h : m.registers.sp - 1 < m.stackLimit) (n : Int) : Refused (push n) m := by
  unfold Refused Exec.Ends
  rw [push_eq, if_pos ⟨rfl, h⟩]
  rfl

theorem pop_refused (h : m.registers.bp ≤ m.registers.sp) : Refused pop m := by
  unfold Refused Exec.Ends
  rw [pop_eq, if_pos ⟨rfl, h⟩]
  rfl

/-- On a sound machine a well-formed operand of the block can be read. -/
theorem Sound.valueOf_withChecks {l : Layout} {k : Nat} (hm : m.Sound l k) {o : Operand}
    (ho : Operand.WellFormed .source o) (hblock : m.OperandInBlock o) (on : Bool) :
    ∃ v, (m.withChecks on).valueOf o = .ok v := by
  cases hv : (m.withChecks on).valueOf o with
  | ok v => exact ⟨v, rfl⟩
  | error fault =>
    exfalso
    -- each reason to fail is excluded: the register exists, the cell is found, there is no label
    rcases valueOf_eq_error hv with ⟨i, rfl, hs⟩ | ⟨i, rfl, hl⟩ | ⟨name, rfl, -⟩
    · obtain ⟨s, -, hs'⟩ := slot_of_inRange ho .noSuchRegister
      rw [hs'] at hs
      cases hs
    · have hi := hblock i rfl
      rw [locate_withChecks hi, locate_of_held hi hm.held hm.count] at hl
      cases hl
    · exact ho

/-- **The test from the stack base is decisive.** A well-formed instruction that stays in the block,
but that the test does not let pass, is refused. -/
theorem execute_refused {l : Layout} {k : Nat} (hm : m.Sound l k) (hins : ins.WellFormed)
    (hblock : m.StaysInBlock ins) (hstack : ¬ m.StackAllows ins.opcode) :
    Refused (execute ins.opcode ins.operands) m := by
  obtain ⟨opcode, operands⟩ := ins
  obtain ⟨harity, hoperands⟩ := hins
  have hone : ∀ action : Operand → Exec Unit, opcode.signature.length = 1 →
      (∀ o, operands = [o] → Refused (action o) m) → Refused (withOne operands action) m := by
    intro action hlen h
    obtain ⟨o, rfl⟩ := List.length_eq_one_iff.mp (harity.trans hlen)
    exact h o rfl
  have hover : ¬ m.stackLimit ≤ m.registers.sp - 1 → m.registers.sp - 1 < m.stackLimit :=
    Int.not_le.mp
  have hunder : ¬ m.registers.sp < m.registers.bp → m.registers.bp ≤ m.registers.sp :=
    Int.not_lt.mp
  cases opcode with
  | push =>
    refine hone pushOperand rfl ?_
    rintro o rfl
    -- the operand is read before the test is made
    obtain ⟨v, hv⟩ := hm.valueOf_withChecks (hoperands (.source, o) List.mem_cons_self)
      (hblock.operand List.mem_cons_self) true
    have hpush := push_refused (hover hstack) v
    unfold Refused Exec.Ends pushOperand at *
    rw [load_bind, hv]
    exact hpush
  | pushf => exact (push_refused (hover hstack) m.flags).get_bind
  | call =>
    refine hone callTarget rfl fun o _ => Refused.get_bind ?_
    exact (push_refused (hover hstack) m.registers.ip).bind _
  -- the remaining instructions of the stack make the test first
  | pop | popf => exact hone popOperand rfl fun o _ => (pop_refused (hunder hstack)).bind _
  | ret => exact (pop_refused (hunder hstack)).bind _
  | _ => exact absurd trivial hstack

end Machine

/-! ### The stack base -/

/-- Another register than the stack base is set. -/
theorem RegisterFile.bp_set {s : Slot} (r : RegisterFile) (v : Value) (h : s ≠ Slot.bp) :
    (r.set s v).bp = r.bp :=
  congrArg Value.toInt (r.get_set_of_ne v h)

open Machine

/-- The stack base stays one past the block unless an instruction writes it. -/
def baseKept : Discipline where
  inv m := m.registers.bp = m.cellCount
  fault _ _ := True
  source _ := True
  target o := Operand.WellFormed .target o ∧ o ≠ .base
  value _ := True
  outside _ _ := trivial
  at_end _ := trivial
  untraceable _ _ _ _ := trivial
  read_fault _ _ _ := trivial
  read_value _ _ _ := trivial
  word_value _ := trivial
  write_fault _ _ _ := trivial
  write_register {m m' i v} hm ho _ h := by
    obtain ⟨s, hs, rfl⟩ := registerSet_eq_ok h
    obtain ⟨hi, hne⟩ := ho
    obtain ⟨t, ht, hslot⟩ := slot_of_inRange hi .noSuchTarget
    obtain rfl : t = s := Except.ok.inj (hslot.symm.trans hs)
    refine (RegisterFile.bp_set _ v ?_).trans hm
    -- the slot of another index is another slot
    rintro rfl
    apply hne
    unfold Operand.base
    rw [ht, Int.toNat_of_nonneg hi.1]
  write_cell hm _ h := by
    obtain ⟨c, -, rfl⟩ := cellSet_eq_ok h
    exact hm
  push n hm :=
    Exec.ends_push (fun _ _ => trivial) (fun _ _ => trivial) fun _ _ =>
      (RegisterFile.bp_set _ _ (by decide)).trans hm
  pop hm :=
    Exec.ends_pop (fun _ _ => trivial) (fun _ _ => trivial) fun _ _ =>
      (RegisterFile.bp_set _ _ (by decide)).trans hm
  setIp _ hm := (RegisterFile.bp_set _ _ (by decide)).trans hm
  remainder hm _ := hm
  flags _ _ hm := hm
  printed _ hm := hm
  unprintable _ _ _ _ := trivial
  zero_divisor _ := trivial
  zero_modulus _ := trivial

theorem baseKept_admitsProgram {p : Program} (hp : p.validate = .ok ())
    (hbase : ∀ ins ∈ p.instructions, ins.opcode ≠ .stop → ¬ ins.Writes .base) :
    baseKept.AdmitsProgram p := by
  intro ins hins hstop
  refine Discipline.admits_of_wellFormed (Program.wellFormed_of_validate hp hins hstop) ?_
  rintro ⟨kind, o⟩ hx ho
  cases kind with
  | source => trivial
  | target =>
    refine ⟨ho, ?_⟩
    rintro rfl
    exact hbase ins hins hstop hx

/-! ### Runs in range -/

namespace Run

/-- **The checks change nothing** about the run of a program on a machine: no bounds check fails,
and registers, cells, flags, remainder, output, steps and status are those of the unchecked run. -/
def Unaffected (p : Program) (m : Machine) (w : Monitor) : Prop :=
  ∀ n, ¬ (onCopy p m w true n).FailedBy Fault.isBoundsCheck ∧
    onCopy p m w true n = (onCopy p m w false n).withChecks true

variable {p : Program} {m : Machine} {w : Monitor}

/-- The checks change nothing if every instruction stays in the block and the test from the stack
base lets it pass. -/
theorem unaffected_of_allows
    (h : ∀ n ins, due? p (onCopy p m w false n) = some ins →
      (onCopy p m w false n).session.machine.StaysInBlock ins ∧
        (onCopy p m w false n).session.machine.StackAllows ins.opcode) :
    Unaffected p m w := by
  intro n
  have hagree : Agree False (onCopy p m w true n) (onCopy p m w false n) :=
    after_agree (r := start p ⟨m, w⟩) (fun n ins hdue => Or.inr (h n ins hdue)) n
  rcases hagree with ⟨r, hc, hu⟩ | ⟨hfalse, -⟩
  · have hcopy : onCopy p m w true n = (onCopy p m w false n).withChecks true := by
      rw [hc, hu]
      rfl
    refine ⟨?_, hcopy⟩
    -- the status is that of the unchecked run, which fails no bounds check
    rw [hcopy]
    exact unchecked_not_failedBy (r := start p ⟨m.withChecks false, w⟩) rfl rfl n
  · exact hfalse.elim

/-- An instruction that is refused ends the checked run with a failed bounds check. -/
theorem failedBy_of_refused {r : Run} {ins : Instruction} (hdue : due? p r = some ins)
    (h : Refused (execute ins.opcode ins.operands) r.session.machine) :
    (advance p (r.withChecks true)).FailedBy Fault.isBoundsCheck := by
  rw [advance_of_due (r := r.withChecks true) hdue]
  unfold Refused at h
  cases hx : execute ins.opcode ins.operands (r.session.machine.withChecks true) with
  | ok a m' => exact (h.ok hx).elim
  | error fault m' =>
    rw [show execute ins.opcode ins.operands (r.withChecks true).session.machine
      = .error fault m' from hx]
    exact ⟨fault, rfl, h.error hx⟩

section Fresh

variable {l : Layout} {c : Context} (hc : Context.create l = .ok c) (hm : c.machine = some m)
  (hp : p.validate = .ok ())

include hc hm hp

/-- While it goes on, the run on a fresh machine has a sound machine. -/
theorem sound_of_due {n : Nat} {ins : Instruction}
    (hdue : due? p (onCopy p m w false n) = some ins) :
    (onCopy p m w false n).session.machine.Sound { l with checked := false } 0 := by
  have hfresh : (m.withChecks false).Sound { l with checked := false } 0 := by
    obtain ⟨hstack, hmemory, hmachine, -⟩ := Context.create_eq_ok hc
    obtain rfl := Option.some.inj (hmachine.symm.trans hm)
    exact { Layout.machine_sound hstack hmemory with checked := rfl }
  exact sound_after (s := ⟨m.withChecks false, w⟩) hfresh hp (due?_eq_some_iff.mp hdue).1

/-- While it goes on, the run on a fresh machine has its stack base one past the block. -/
theorem base_of_due (hbase : ∀ ins ∈ p.instructions, ins.opcode ≠ .stop → ¬ ins.Writes .base)
    {n : Nat} {ins : Instruction} (hdue : due? p (onCopy p m w false n) = some ins) :
    (onCopy p m w false n).session.machine.registers.bp
      = (onCopy p m w false n).session.machine.cellCount := by
  have hfresh : (m.withChecks false).registers.bp = (m.withChecks false).cellCount := by
    obtain ⟨-, -, hmachine, -⟩ := Context.create_eq_ok hc
    obtain rfl := Option.some.inj (hmachine.symm.trans hm)
    rfl
  exact Discipline.inv_of_due (D := baseKept) (s := ⟨m.withChecks false, w⟩) hfresh
    (baseKept_admitsProgram hp hbase) hdue

/-- **The checks and runs in range.** A program runs in range on the unchecked machine of a fresh
context: it touches cells of the block only, and the stack only in its region. The checks change
nothing about this run exactly if the test from the stack base lets every instruction pass; and they
change nothing if no instruction writes the stack base. -/
theorem in_range_run_unchanged_iff
    (hrange : ∀ n ins, due? p (onCopy p m w false n) = some ins →
      (onCopy p m w false n).session.machine.InRange ins) :
    (Unaffected p m w ↔ ∀ n ins, due? p (onCopy p m w false n) = some ins →
      (onCopy p m w false n).session.machine.StackAllows ins.opcode) ∧
    ((∀ ins ∈ p.instructions, ins.opcode ≠ .stop → ¬ ins.Writes .base) → Unaffected p m w) := by
  refine ⟨⟨fun h n ins hdue => ?_, fun h => ?_⟩, fun hbase => ?_⟩
  · refine Classical.byContradiction fun hstack => ?_
    have hwf := (Program.validate_eq_ok_iff.mp hp).2 ins (mem_of_due hdue)
      (due?_eq_some_iff.mp hdue).2.2.1
    have hrefused := execute_refused (sound_of_due hc hm hp hdue) hwf (hrange n ins hdue).1 hstack
    -- the checked run comes to the same instruction, and fails there
    refine (h (n + 1)).1 ?_
    have hnext : onCopy p m w true (n + 1) = advance p (onCopy p m w true n) := after_succ p n _
    rw [hnext, (h n).2]
    exact failedBy_of_refused hdue hrefused
  · exact unaffected_of_allows fun n ins hdue => ⟨(hrange n ins hdue).1, h n ins hdue⟩
  · -- the stack base stays where it was put, and the test from it is a test of the region
    refine unaffected_of_allows fun n ins hdue => ?_
    obtain ⟨hblock, hregion⟩ := hrange n ins hdue
    exact ⟨hblock, stackAllows_of_base (base_of_due hc hm hp hbase hdue) hregion⟩

end Fresh

/-- A program that puts a number on the stack, takes it off and prints it. -/
def throughStack : Program :=
  .make #[⟨.push, [.immediate 7]⟩, ⟨.pop, [.register 0]⟩, ⟨.prn, [.register 0]⟩] 0 .empty .empty

/-- It leaves the stack base alone, so the checks change nothing about it. -/
theorem throughStack_unaffected :
    ∃ c, Context.create ⟨64, 16, false⟩ = .ok c ∧
      c.machine = some (Layout.machine ⟨64, 16, false⟩) ∧
      Unaffected throughStack (Layout.machine ⟨64, 16, false⟩) {} := by
  obtain ⟨c, hc⟩ : ∃ c, Context.create ⟨64, 16, false⟩ = .ok c := ⟨_, rfl⟩
  have hm : c.machine = some (Layout.machine ⟨64, 16, false⟩) := (Context.create_eq_ok hc).2.2.1
  have hrange := forall_due_of_stopped (p := throughStack)
    (r := start throughStack ⟨(Layout.machine ⟨64, 16, false⟩).withChecks false, {}⟩)
    (P := fun r ins => r.session.machine.InRange ins) 4 (by decide +kernel) (by decide +kernel)
  exact ⟨c, hc, hm, (in_range_run_unchanged_iff hc hm rfl hrange).2 (by decide)⟩

/-- A function that sets up a frame and takes it down: it saves the stack base, sets it to the stack
pointer and restores it. -/
def framed : Program :=
  .make #[⟨.push, [.base]⟩, ⟨.mov, [.base, .register 6]⟩, ⟨.pop, [.base]⟩] 0 .empty .empty

/-- It runs in range and to its end. The checked run is refused the pop that restores the stack
base, because the stack base is at the very cell that is to be popped. -/
theorem framed_refused :
    framed.validate = .ok () ∧
    (∃ c, Context.create ⟨64, 16, false⟩ = .ok c ∧
      c.machine = some (Layout.machine ⟨64, 16, false⟩)) ∧
    (∀ n ins, due? framed (onCopy framed (Layout.machine ⟨64, 16, false⟩) {} false n) = some ins →
      (onCopy framed (Layout.machine ⟨64, 16, false⟩) {} false n).session.machine.InRange ins) ∧
    (onCopy framed (Layout.machine ⟨64, 16, false⟩) {} false 4).status = .finished ∧
    (onCopy framed (Layout.machine ⟨64, 16, false⟩) {} true 3).status
      = .faulted (.stackUnderflow 15) := by
  refine ⟨rfl, ⟨_, rfl, rfl⟩, ?_, by decide, by decide⟩
  exact forall_due_of_stopped (P := fun r ins => r.session.machine.InRange ins) 4
    (by decide) (by decide)

end Run

end CellMachine
