import CellMachine.Proofs.Operations
import CellMachine.Proofs.Rounds

/-!
# Transfers of control

A run moves the instruction pointer on after every instruction, also after a jump. So a jump sets
the instruction pointer one before its target, a call pushes its own index, and a return sets the
instruction pointer to the index of the call; the move that follows corrects each by one. Both
settings wrap, and the instruction pointer is a register that instructions may read and write.

The machine that is described here has no such convention. An instruction answers with the index at
which the program goes on, and the instruction pointer is set once, to that index:

* the target for a jump that is taken and for a call, which reads its target after it has pushed;
* one after the popped index for a return;
* one after the instruction pointer, as the instruction has left it, for all others.

The two machines run in step, on every program and from every state (`after_eq_direct`).
-/

namespace CellMachine

/-! ### The instruction pointer -/

/-- A sum can be wrapped before its second part is added. -/
theorem Word.wrap_wrap_add (a b : Int) : wrap (wrap a + b) = wrap (a + b) :=
  Int.bmod_add_bmod

namespace Machine

/-- The instruction pointer is kept as a word. -/
theorem ip_setIp (m : Machine) (index : Int) : (m.setIp index).registers.ip = Word.wrap index :=
  congrArg Value.toInt (m.registers.get_set_self Slot.ip _)

/-- Only the last setting of the instruction pointer counts. -/
theorem setIp_setIp (m : Machine) (i j : Int) : (m.setIp i).setIp j = m.setIp j := by
  -- both settings go to the same slot
  unfold setIp RegisterFile.setIp RegisterFile.writeInt RegisterFile.set
  rw [Vector.set_set]

/-- So it makes no difference whether the index was a word before. -/
theorem setIp_wrap (m : Machine) (index : Int) : m.setIp (Word.wrap index) = m.setIp index := by
  unfold setIp RegisterFile.setIp RegisterFile.writeInt
  rw [Word.wrap_wrap]

/-- Setting the instruction pointer and moving it on sets it to the number after. -/
theorem setIp_next (m : Machine) (index : Int) :
    (m.setIp index).setIp ((m.setIp index).registers.ip + 1) = m.setIp (Word.wrap (index + 1)) := by
  rw [setIp_setIp, ip_setIp, ← setIp_wrap, Word.wrap_wrap_add]

end Machine

/-! ### The machine with direct targets -/

namespace Direct

open Machine

/-- The index that an operand refers to. -/
def target (o : Operand) : Exec Int := do
  return Word.wrap (← load o)

/-- The index after the instruction pointer, once an action is done. -/
def following (action : Exec Unit) : Exec Int := do
  action
  return Word.wrap ((← get).registers.ip + 1)

/-- Use the only operand. -/
def withTarget (operands : List Operand) (action : Operand → Exec Int) : Exec Int :=
  match operands with
  | [o] => action o
  | _ => throw .missingOperand

/-- The target of a jump that is taken under a condition on the flags. -/
def targetIf (condition : Int → Bool) (o : Operand) : Exec Int := do
  if condition (← get).flags then target o else following (pure ())

/-- Push the index of the call, and then look up the target. -/
def call (o : Operand) : Exec Int := do
  push (← get).registers.ip
  target o

/-- The index after the one that was pushed last. -/
def ret : Exec Int := do
  return Word.wrap ((← pop) + 1)

/-- The effect of an instruction, with the index at which the program goes on. -/
def execute (opcode : Opcode) (operands : List Operand) : Exec Int :=
  match opcode with
  | .jmp => withTarget operands target
  | .je | .jne | .jg | .jge | .jl | .jle =>
    withTarget operands fun o =>
      match jumpCondition opcode with
      | some condition => targetIf condition o
      | none => following (pure ())
  | .call => withTarget operands call
  | .ret => ret
  | _ => following (Machine.execute opcode operands)

/-- One round: fetch, observe, execute, and set the instruction pointer. -/
def advance (p : Program) : Run → Run
  | ⟨⟨m, w⟩, steps, .running⟩ =>
    match p.fetch m.registers.ip with
    | .error fault => ⟨⟨m, w⟩, steps, .faulted fault⟩
    | .ok ins =>
      if ins.opcode = .stop then ⟨⟨m, w⟩, steps, .finished⟩
      else if w.balks m.registers.ip ins m.registers then ⟨⟨m, w⟩, steps, .faulted .unwritable⟩
      else
        let w := w.observe m.registers.ip ins m.registers
        match execute ins.opcode ins.operands m with
        | .ok index m => ⟨⟨m.setIp index, w⟩, steps + 1, .running⟩
        | .error fault m => ⟨⟨m, w⟩, steps, .faulted fault⟩
  | r => r

/-- The run after a number of rounds. -/
def after (p : Program) : Nat → Run → Run
  | 0, r => r
  | n + 1, r => advance p (after p n r)

/-! ### One instruction -/

/-- Move the instruction pointer on, as a run does after every instruction. -/
def moveOn : Exec Unit := modify fun m => m.setIp (m.registers.ip + 1)

/-- Set the instruction pointer to the index at which the program goes on. -/
def goTo (index : Int) : Exec Unit := modify (·.setIp index)

/-- With the wrong number of operands neither gets as far as a target. -/
theorem withTarget_bind (operands : List Operand) (action : Operand → Exec Int)
    (effect : Operand → Exec Unit)
    (h : ∀ o, (effect o >>= fun _ => moveOn) = (action o >>= goTo)) :
    (withOne operands effect >>= fun _ => moveOn) = (withTarget operands action >>= goTo) := by
  match operands with
  | [] => rfl
  | [o] => exact h o
  | _ :: _ :: _ => rfl

/-- What goes on behind itself adds one, here to the index and there to the pointer. -/
theorem following_bind (action : Exec Unit) :
    (action >>= fun _ => moveOn) = (following action >>= goTo) := by
  unfold following
  rw [bind_assoc]
  congr 1
  funext _
  -- the index is read from the machine that it is then set on
  funext m
  exact congrArg (EStateM.Result.ok ()) (m.setIp_wrap _).symm

/-- One before the target and on by one is the target. -/
theorem transfer_bind (o : Operand) :
    (transfer o >>= fun _ => moveOn) = (target o >>= goTo) := by
  unfold transfer target
  rw [bind_assoc, bind_assoc]
  congr 1
  funext t
  funext m
  -- one before the target, and on by one
  have hnext := m.setIp_next (t - 1)
  rw [Int.sub_add_cancel] at hnext
  exact congrArg (EStateM.Result.ok ()) hnext

/-- A jump that is not taken goes on behind itself. -/
theorem transferIf_bind (condition : Int → Bool) (o : Operand) :
    (transferIf condition o >>= fun _ => moveOn) = (targetIf condition o >>= goTo) := by
  unfold transferIf targetIf
  rw [bind_assoc, bind_assoc]
  congr 1
  funext m
  -- a jump that is not taken does nothing, and the program goes on behind it
  by_cases h : condition m.flags
  · rw [if_pos h, if_pos h]
    exact transfer_bind o
  · rw [if_neg h, if_neg h]
    exact following_bind (pure ())

/-- A call is a push and a transfer. -/
theorem call_bind (o : Operand) : (callTarget o >>= fun _ => moveOn) = (call o >>= goTo) := by
  unfold callTarget call
  -- the push comes first on both sides, and the target is read from what it leaves
  simp only [bind_assoc, transfer_bind]

/-- The index that was pushed is that of the call, so that a return goes one behind it. -/
theorem ret_bind : (returnToCaller >>= fun _ => moveOn) = (ret >>= goTo) := by
  unfold returnToCaller ret
  rw [bind_assoc, bind_assoc]
  congr 1
  funext index
  funext m
  exact congrArg (EStateM.Result.ok ()) (m.setIp_next index)

/-- **One instruction.** To execute an instruction and to move on is to execute it with its direct
target and to go there. -/
theorem execute_bind (opcode : Opcode) (operands : List Operand) :
    (Machine.execute opcode operands >>= fun _ => moveOn) = (execute opcode operands >>= goTo) := by
  cases opcode with
  | jmp => exact withTarget_bind operands target transfer transfer_bind
  | je | jne | jg | jge | jl | jle =>
    exact withTarget_bind operands _ _ fun o => transferIf_bind _ o
  | call => exact withTarget_bind operands call callTarget call_bind
  | ret => exact ret_bind
  -- everything else goes on after the instruction pointer
  | _ => exact following_bind _

/-! ### Runs -/

/-- **One round.** -/
theorem advance_eq_direct (p : Program) (r : Run) : Run.advance p r = advance p r := by
  obtain ⟨⟨m, w⟩, steps, status⟩ := r
  cases status with
  | finished => rfl
  | faulted fault => rfl
  | running =>
    cases hf : p.fetch m.registers.ip with
    | error fault => simp only [Run.advance, advance, hf]
    | ok ins =>
      by_cases hstop : ins.opcode = .stop
      · simp only [Run.advance, advance, hf, if_pos hstop]
      · have hexec := congrFun (execute_bind ins.opcode ins.operands) m
        rw [Exec.bind_apply, Exec.bind_apply] at hexec
        by_cases hw : w.balks m.registers.ip ins m.registers = true
        · -- neither machine executes an instruction whose line cannot be written
          simp only [Run.advance, Session.step, advance, hf, if_neg hstop, if_pos hw]
        simp only [Run.advance, Session.step, advance, hf, if_neg hstop, if_neg hw]
        -- the outcomes agree, so both instructions succeed or both fail
        cases hx : Machine.execute ins.opcode ins.operands m with
        | ok a m' =>
          cases hd : execute ins.opcode ins.operands m with
          | ok index m'' =>
            rw [hx, hd] at hexec
            obtain ⟨-, hm⟩ := EStateM.Result.ok.inj hexec
            exact congrArg (fun m => (⟨⟨m, _⟩, steps + 1, .running⟩ : Run)) hm
          | error fault m'' =>
            rw [hx, hd] at hexec
            cases hexec
        | error fault m' =>
          cases hd : execute ins.opcode ins.operands m with
          | ok index m'' =>
            rw [hx, hd] at hexec
            cases hexec
          | error fault' m'' =>
            rw [hx, hd] at hexec
            obtain ⟨rfl, rfl⟩ := EStateM.Result.error.inj hexec
            rfl

/-- **The two machines run in step.** From every state, machine, monitor, number of steps and status
are the same after any number of rounds, whether transfers of control go by the index before the
target or by the target itself. -/
theorem after_eq_direct (p : Program) (n : Nat) (r : Run) : Run.after p n r = after p n r := by
  induction n with
  | zero => rfl
  | succ n ih =>
    rw [Run.after_succ, ih]
    exact advance_eq_direct p (after p n r)

end Direct

end CellMachine
