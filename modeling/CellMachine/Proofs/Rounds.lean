import CellMachine.Run

/-!
# Rounds of a run

`Run.after` counts the rounds of a run from its front: it makes one round and hands the rest over
to a smaller number. Invariants are carried the other way, from what holds after `n` rounds to
what holds after one more, so the run is read here as the iteration of `Run.advance`
(`Run.after_succ`).

A round either executes an instruction or brings the run to a stop, and `Run.due?` tells which:
it is the instruction that the next round is going to execute. The run has come to it
(`Run.upcoming?`), and the monitor can record it.

* `Run.advance_of_due` is a round that executes. The run goes on or fails as the outcome of
  `Machine.execute` says (`Run.settle`).
* `Run.advance_of_not_due` is a round that does not. Machine, monitor and count stay as they are,
  and the run ends by `Run.verdict`.

The monitor has a say in a run only where it balks at a line that it cannot write. Runs that differ
in what was watched before stay alike for as long as their monitors balk alike
(`Run.advance_alike`). Monitors that both trace or both do not are such (`Run.after_alike`), and so
are all monitors while every line can be written (`Run.after_alike_of_writable`).
-/

namespace CellMachine

/-- Only an instruction of the program is fetched. -/
theorem mem_of_fetch {p : Program} {index : Int} {ins : Instruction}
    (h : p.fetch index = .ok ins) : ins ∈ p.instructions := by
  unfold Program.fetch Program.instruction? at h
  split at h
  · next ins' hi =>
    obtain rfl : ins' = ins := Except.ok.inj h
    -- a negative index fetches nothing, so the look-up was one in the array
    split at hi
    · exact Array.mem_of_getElem? hi
    · cases hi
  · cases h

/-- A fetch fails only by leaving the program. -/
theorem fetch_fault {p : Program} {index : Int} {fault : Fault}
    (h : p.fetch index = .error fault) : fault = .outsideProgram index p.size := by
  unfold Program.fetch at h
  split at h
  · cases h
  · exact (Except.error.inj h).symm

namespace Run

variable {p : Program} {r : Run} {ins : Instruction}

/-! ### The number of rounds -/

/-- A run that has stopped stays as it is. -/
theorem advance_of_stopped (h : r.status ≠ .running) : advance p r = r := by
  obtain ⟨s, steps, status⟩ := r
  cases status with
  | running => exact absurd rfl h
  | finished => rfl
  | faulted fault => rfl

/-- No number of rounds changes it. -/
theorem after_of_stopped (h : r.status ≠ .running) (n : Nat) : after p n r = r := by
  obtain ⟨s, steps, status⟩ := r
  cases n with
  | zero => rfl
  | succ n =>
    cases status with
    | running => exact absurd rfl h
    | finished => rfl
    | faulted fault => rfl

/-- The first round can be split off whether or not the run goes on. -/
theorem after_succ_front (p : Program) (n : Nat) (r : Run) :
    after p (n + 1) r = after p n (advance p r) := by
  by_cases h : r.status = .running
  · obtain ⟨s, steps, status⟩ := r
    obtain rfl : status = .running := h
    rfl
  · rw [after_of_stopped h, advance_of_stopped h, after_of_stopped h]

/-- Rounds can be made in two parts. -/
theorem after_add (p : Program) (j k : Nat) (r : Run) :
    after p (j + k) r = after p k (after p j r) := by
  -- `after` takes its rounds from the front, so the induction is on those that come first
  induction j generalizing r with
  | zero => rw [Nat.zero_add]; rfl
  | succ j ih => rw [Nat.add_right_comm, after_succ_front, ih, ← after_succ_front]

/-- **The last round.** A further round is one more step of the run so far. -/
theorem after_succ (p : Program) (n : Nat) (r : Run) :
    after p (n + 1) r = advance p (after p n r) := by
  rw [after_add, after_succ_front]
  rfl

/-- Once the run has stopped, the number of rounds no longer matters. -/
theorem after_eq_of_stopped {j k : Nat} (h : (after p j r).status ≠ .running) (hjk : j ≤ k) :
    after p k r = after p j r := by
  obtain ⟨d, rfl⟩ := Nat.exists_eq_add_of_le hjk
  rw [after_add, after_of_stopped h]

/-! ### One round -/

/-- The instruction that a run has come to, unless it has stopped, has left the program or is at the
end of it. -/
def upcoming? (p : Program) (r : Run) : Option Instruction :=
  match r.status, p.fetch r.session.machine.registers.ip with
  | .running, .ok ins => if ins.opcode = .stop then none else some ins
  | _, _ => none

/-- The monitor of a run is to record an instruction, and cannot write the line. -/
def balks (r : Run) (ins : Instruction) : Bool :=
  r.session.monitor.balks r.session.machine.registers.ip ins r.session.machine.registers

/-- The instruction that the next round executes, if it executes one. -/
def due? (p : Program) (r : Run) : Option Instruction :=
  (upcoming? p r).filter fun ins => !r.balks ins

/-- How a run that executes nothing more ends. What it has come to and does not execute is the end
of the program or an instruction whose line cannot be written. -/
def verdict (p : Program) (r : Run) : Status :=
  match r.status, p.fetch r.session.machine.registers.ip with
  | .running, .ok ins => if ins.opcode = .stop then .finished else .faulted .unwritable
  | .running, .error fault => .faulted fault
  | status, _ => status

/-- The run after an instruction, by the outcome of executing it. -/
def settle (w : Monitor) (steps : Nat) : EStateM.Result Fault Machine Unit → Run
  | .ok () m => ⟨⟨m.setIp (m.registers.ip + 1), w⟩, steps + 1, .running⟩
  | .error fault m => ⟨⟨m, w⟩, steps, .faulted fault⟩

/-- A run that goes on has come to the instruction at its index. -/
theorem upcoming?_eq_some_iff :
    upcoming? p r = some ins ↔
      r.status = .running ∧ p.fetch r.session.machine.registers.ip = .ok ins ∧
        ins.opcode ≠ .stop := by
  unfold upcoming?
  split
  · next ins' hs hf =>
    rw [hs, hf]
    constructor
    · intro h
      split at h
      · exact absurd h (by simp)
      · next hstop =>
        obtain rfl : ins' = ins := Option.some.inj h
        exact ⟨rfl, rfl, hstop⟩
    · rintro ⟨-, h, hstop⟩
      obtain rfl : ins' = ins := Except.ok.inj h
      rw [if_neg hstop]
  · -- the run has stopped, or there is nothing to fetch
    next hne =>
    constructor
    · intro h
      exact absurd h (by simp)
    · rintro ⟨hs, hf, -⟩
      exact absurd hf (hne ins hs)

/-- An instruction is due where a run has come to it and the monitor does not balk. -/
theorem due?_eq_some_iff_upcoming :
    due? p r = some ins ↔ upcoming? p r = some ins ∧ r.balks ins = false := by
  unfold due?
  rw [Option.filter_eq_some_iff, Bool.not_eq_true']

/-- An instruction is due in a run that goes on, at the index it was fetched from. -/
theorem due?_eq_some_iff :
    due? p r = some ins ↔
      r.status = .running ∧ p.fetch r.session.machine.registers.ip = .ok ins ∧
        ins.opcode ≠ .stop ∧ r.balks ins = false := by
  rw [due?_eq_some_iff_upcoming, upcoming?_eq_some_iff, and_assoc, and_assoc]

/-- A due instruction is one of the program. -/
theorem mem_of_due (h : due? p r = some ins) : ins ∈ p.instructions :=
  mem_of_fetch (due?_eq_some_iff.mp h).2.1

/-- What is to hold of every due instruction has to be looked at only until the run has stopped. -/
theorem forall_due_of_stopped {P : Run → Instruction → Prop} (n₀ : Nat)
    (hstop : (after p n₀ r).status ≠ .running)
    (h : ∀ n < n₀, ∀ ins ∈ due? p (after p n r), P (after p n r) ins) (n : Nat) (ins : Instruction)
    (hdue : due? p (after p n r) = some ins) : P (after p n r) ins := by
  by_cases hn : n < n₀
  · exact h n hn ins hdue
  · -- nothing is due in a run that has stopped
    have hrun : (after p n r).status = .running := (due?_eq_some_iff.mp hdue).1
    rw [after_eq_of_stopped hstop (Nat.le_of_not_lt hn)] at hrun
    exact absurd hrun hstop

/-- **A round that executes.** -/
theorem advance_of_due (h : due? p r = some ins) :
    advance p r =
      settle (r.session.monitor.observe r.session.machine.registers.ip ins
          r.session.machine.registers) r.steps
        (Machine.execute ins.opcode ins.operands r.session.machine) := by
  obtain ⟨⟨m, w⟩, steps, status⟩ := r
  obtain ⟨hs, hf, hstop, hbalks⟩ := due?_eq_some_iff.mp h
  obtain rfl : status = .running := hs
  have hw : w.balks m.registers.ip ins m.registers ≠ true := Bool.eq_false_iff.mp hbalks
  -- a round looks at the instruction twice, once for the end and once to execute it
  simp only [advance, Session.step, hf, if_neg hstop, if_neg hw]
  cases Machine.execute ins.opcode ins.operands m with
  | ok a m' => rfl
  | error fault m' => rfl

/-- **A round that executes nothing.** -/
theorem advance_of_not_due (h : due? p r = none) :
    advance p r = { r with status := verdict p r } := by
  obtain ⟨⟨m, w⟩, steps, status⟩ := r
  cases status with
  | finished => rfl
  | faulted fault => rfl
  | running =>
    cases hf : p.fetch m.registers.ip with
    | error fault => simp only [advance, verdict, hf]
    | ok ins =>
      by_cases hstop : ins.opcode = .stop
      · simp only [advance, verdict, hf, if_pos hstop]
      · -- what was fetched and is not due cannot be recorded
        have hw : w.balks m.registers.ip ins m.registers = true :=
          Decidable.byContradiction fun hne => by
            have hdue : due? p ⟨⟨m, w⟩, steps, .running⟩ = some ins :=
              due?_eq_some_iff.mpr ⟨rfl, hf, hstop, (Bool.not_eq_true _).mp hne⟩
            rw [hdue] at h
            cases h
        simp only [advance, Session.step, verdict, hf, if_neg hstop, if_pos hw]

/-- **A round that comes to a line that cannot be written** ends the run there. -/
theorem advance_of_balks (h : upcoming? p r = some ins) (hbalks : r.balks ins = true) :
    advance p r = { r with status := .faulted .unwritable } := by
  have hdue : due? p r = none := by
    unfold due?
    rw [h, Option.filter_some, hbalks]
    rfl
  obtain ⟨hs, hf, hstop⟩ := upcoming?_eq_some_iff.mp h
  have hverdict : verdict p r = .faulted .unwritable := by
    unfold verdict
    rw [hs, hf]
    exact if_neg hstop
  rw [advance_of_not_due hdue, hverdict]

/-- The verdict never is that the run goes on. -/
theorem verdict_ne_running (p : Program) (r : Run) : verdict p r ≠ .running := by
  obtain ⟨s, steps, status⟩ := r
  cases status with
  | finished => exact nofun
  | faulted fault => exact nofun
  | running =>
    unfold verdict
    cases hf : p.fetch s.machine.registers.ip with
    | error fault => simp
    | ok ins =>
      by_cases hstop : ins.opcode = .stop
      · simp [hstop]
      · simp [hstop]

/-- **A round after which the run goes on** has executed an instruction, and moved the instruction
pointer on. -/
theorem exists_of_advance_running (h : (advance p r).status = .running) :
    ∃ ins m', due? p r = some ins ∧
      Machine.execute ins.opcode ins.operands r.session.machine = .ok () m' ∧
      (advance p r).session.machine = m'.setIp (m'.registers.ip + 1) := by
  cases hdue : due? p r with
  | none =>
    rw [advance_of_not_due hdue] at h
    exact absurd h (verdict_ne_running p r)
  | some ins =>
    rw [advance_of_due hdue] at h ⊢
    cases hx : Machine.execute ins.opcode ins.operands r.session.machine with
    | ok a m' => exact ⟨ins, m', rfl, hx, rfl⟩
    | error fault m' =>
      rw [hx] at h
      cases h

/-! ### The monitor -/

/-- Runs that differ at most in what was watched. -/
structure Alike (r r' : Run) : Prop where
  machine : r.session.machine = r'.session.machine
  steps : r.steps = r'.steps
  status : r.status = r'.status

variable {r' : Run}

theorem Alike.symm (h : Alike r r') : Alike r' r :=
  ⟨h.machine.symm, h.steps.symm, h.status.symm⟩

/-- Runs that start on the same machine are alike. -/
theorem start_alike (p : Program) (m : Machine) (w w' : Monitor) :
    Alike (start p ⟨m, w⟩) (start p ⟨m, w'⟩) :=
  ⟨rfl, rfl, rfl⟩

/-- Runs that are alike have come to the same instruction. -/
theorem Alike.upcoming (h : Alike r r') : upcoming? p r' = upcoming? p r := by
  unfold upcoming?
  rw [h.machine, h.status]

/-- They have the same instruction due if their monitors balk alike. -/
theorem Alike.due (h : Alike r r')
    (hbalks : ∀ ins, upcoming? p r = some ins → r'.balks ins = r.balks ins) :
    due? p r' = due? p r := by
  unfold due?
  rw [h.upcoming]
  cases hins : upcoming? p r with
  | none => rfl
  | some ins => rw [Option.filter_some, Option.filter_some, hbalks ins hins]

/-- **One round** keeps runs alike whose monitors balk alike. -/
theorem advance_alike (h : Alike r r')
    (hbalks : ∀ ins, upcoming? p r = some ins → r'.balks ins = r.balks ins) :
    Alike (advance p r) (advance p r') := by
  have hdue := h.due hbalks
  have hverdict : verdict p r' = verdict p r := by
    unfold verdict
    rw [h.machine, h.status]
  cases hins : due? p r with
  | none =>
    rw [advance_of_not_due hins, advance_of_not_due (hdue.trans hins), hverdict]
    exact ⟨h.machine, h.steps, rfl⟩
  | some ins =>
    -- the same instruction is executed on the same machine
    rw [advance_of_due hins, advance_of_due (hdue.trans hins), ← h.machine, ← h.steps]
    cases Machine.execute ins.opcode ins.operands r.session.machine with
    | ok a m => exact ⟨rfl, rfl, rfl⟩
    | error fault m => exact ⟨rfl, rfl, rfl⟩

/-- A round does not turn tracing on or off. -/
theorem tracing_advance (p : Program) (r : Run) :
    (advance p r).session.monitor.tracing = r.session.monitor.tracing := by
  cases hdue : due? p r with
  | none => rw [advance_of_not_due hdue]
  | some ins =>
    -- to record a line changes what was recorded, not whether lines are
    have hobserve : ∀ w : Monitor, ∀ index registers,
        (w.observe index ins registers).tracing = w.tracing := by
      rintro ⟨tracing, trace, log⟩ index registers
      cases tracing with
      | true => rfl
      | false => rfl
    rw [advance_of_due hdue]
    cases Machine.execute ins.opcode ins.operands r.session.machine with
    | ok a m => exact hobserve _ _ _
    | error fault m => exact hobserve _ _ _

/-- Nor do any number of rounds. -/
theorem tracing_after (p : Program) (r : Run) (n : Nat) :
    (after p n r).session.monitor.tracing = r.session.monitor.tracing := by
  induction n with
  | zero => rfl
  | succ n ih => rw [after_succ, tracing_advance, ih]

/-- **Monitors that both trace, or both do not**, make no difference to a run of any number of
rounds. -/
theorem after_alike (h : Alike r r')
    (htracing : r'.session.monitor.tracing = r.session.monitor.tracing) (n : Nat) :
    Alike (after p n r) (after p n r') := by
  induction n with
  | zero => exact h
  | succ n ih =>
    rw [after_succ, after_succ]
    refine advance_alike ih fun ins _ => ?_
    -- whether a monitor balks depends on the machine and on whether it traces
    unfold balks Monitor.balks
    rw [tracing_after, tracing_after, htracing, ih.machine]

/-- The line for the instruction that a run has come to can be written. -/
def WritableNext (p : Program) (r : Run) : Prop :=
  ∀ ins, upcoming? p r = some ins →
    ∀ n ∈ Monitor.lineNumbers r.session.machine.registers.ip ins r.session.machine.registers,
      Text.isWritable n = true

/-- No monitor balks at a line that can be written. -/
theorem WritableNext.balks (h : WritableNext p r) (hins : upcoming? p r = some ins)
    (hmachine : r.session.machine = r'.session.machine) : r'.balks ins = false := by
  have hall : (Monitor.lineNumbers r'.session.machine.registers.ip ins
      r'.session.machine.registers).all Text.isWritable = true :=
    List.all_eq_true.mpr (hmachine ▸ h ins hins)
  unfold Run.balks Monitor.balks
  rw [hall, Bool.not_true, Bool.and_false]

/-- Runs that are alike have the same line to write. -/
theorem Alike.writableNext (h : Alike r r') (hline : WritableNext p r') : WritableNext p r := by
  intro ins hins
  rw [h.machine]
  exact hline ins (h.upcoming.trans hins)

/-- A run that is traced balks at a line that cannot be written. -/
theorem exists_balks (hline : ¬ WritableNext p r) (htracing : r.session.monitor.tracing = true) :
    ∃ ins, upcoming? p r = some ins ∧ r.balks ins = true := by
  cases hins : upcoming? p r with
  | none =>
    refine absurd (fun ins hins' => ?_) hline
    rw [hins] at hins'
    cases hins'
  | some ins =>
    refine ⟨ins, rfl, Decidable.byContradiction fun hbalks => hline fun ins' hins' => ?_⟩
    obtain rfl : ins = ins' := Option.some.inj (hins.symm.trans hins')
    unfold balks Monitor.balks at hbalks
    rw [htracing, Bool.true_and, Bool.not_eq_true', Bool.not_eq_false] at hbalks
    exact List.all_eq_true.mp hbalks

/-- **While every line can be written**, monitors make no difference to a run. -/
theorem after_alike_of_writable (h : Alike r r') {n : Nat}
    (hlines : ∀ k < n, WritableNext p (after p k r)) : Alike (after p n r) (after p n r') := by
  induction n with
  | zero => exact h
  | succ n ih =>
    have halike := ih fun k hk => hlines k (Nat.lt_succ_of_lt hk)
    have hline := hlines n (Nat.lt_succ_self n)
    rw [after_succ, after_succ]
    refine advance_alike halike fun ins hins => ?_
    rw [hline.balks hins halike.machine, hline.balks hins rfl]

end Run

end CellMachine
