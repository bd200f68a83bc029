import CellMachine.Proofs.BoundsChecks
import CellMachine.Proofs.StaticFlow

/-!
# Programs without loops

If every branch goes forward, then every round that executes an instruction moves the run on, and
there are only so many instructions before the end (`Program.Forward`). The distance from the start
bounds the number of instructions that have been executed (`Run.advanced_of_running`), so the run
stops after no more rounds than there are indices from the start on, from any state, on a checked
machine or not (`forward_program_halts`).

A run that stops without having come to an end was refused an access, divided by zero, or was to
show a number of too many digits. The host learns of the first two by a fault that can be told, with
one exception: a bounds check whose numbers have too many digits fails untold. An unchecked machine
has no bounds checks, so there only a run that prints or is traced can fail untold
(`Run.untold_cases`). A sound machine has no such numbers (`Run.told_of_sound`).
-/

namespace CellMachine

open Machine

/-! ### Forward programs -/

/-- An operand is an index after `i`, and no later than `last`. -/
def Operand.IsAhead (i last : Int) : Operand → Prop
  | .immediate t => i < t ∧ t ≤ last
  | _ => False

instance (i last : Int) : (o : Operand) → Decidable (o.IsAhead i last)
  | .immediate t => inferInstanceAs (Decidable (i < t ∧ t ≤ last))
  | .register _ | .cell _ | .label _ => isFalse id

namespace Program

variable {p : Program}

/-- The index of the last instruction, once the program is installed. -/
def lastIndex (p : Program) : Int := (p.installed.size : Int) - 1

/-- **A program that only goes forward.** Every branch has its target written out, and it lies ahead
of the branch; there is no return, and no instruction writes the instruction pointer. -/
structure Forward (p : Program) : Prop where
  valid : p.validate = .ok ()
  /-- Every index is a word. -/
  size : p.lastIndex ≤ Word.maximum
  branches : ∀ i : Fin p.installed.instructions.size,
    p.installed.instructions[i].opcode.isBranch = true →
      ∀ o ∈ p.installed.instructions[i].operands, o.IsAhead i p.lastIndex
  no_return : ∀ ins ∈ p.installed.instructions, ins.opcode ≠ .ret
  ip_kept : ∀ ins ∈ p.installed.instructions, ¬ ins.Writes (.ofSlot Slot.ip)

/-- An installed program ends in an end. -/
theorem stopsAt_lastIndex (p : Program) : p.installed.StopsAt p.lastIndex := by
  obtain ⟨ins, hlast, hstop⟩ := exists_back?_closed p.instructions
  have hget : p.installed.instructions[p.installed.instructions.size - 1]? = some ins := by
    rw [← Array.back?_eq_getElem?]
    exact hlast
  have hlt := (Array.getElem?_eq_some_iff.mp hget).1
  have hindex : p.lastIndex.toNat = p.installed.instructions.size - 1 := by
    unfold lastIndex size
    omega
  refine ⟨ins, fetch_eq_ok_iff.mpr ⟨?_, by rw [hindex]; exact hget⟩, hstop⟩
  unfold lastIndex size
  omega

/-- Whatever a branch names lies ahead of it. -/
theorem Forward.isAhead (hp : p.Forward) {i : Int} {ins : Instruction}
    (hfetch : p.installed.fetch i = .ok ins) (hbranch : ins.opcode.isBranch = true) {o : Operand}
    (ho : o ∈ ins.operands) : ∃ t, o = .immediate t ∧ i < t ∧ t ≤ p.lastIndex := by
  obtain ⟨hi, hget⟩ := fetch_eq_ok_iff.mp hfetch
  obtain ⟨hlt, rfl⟩ := Array.getElem?_eq_some_iff.mp hget
  have hahead := hp.branches ⟨i.toNat, hlt⟩ hbranch o ho
  cases o with
  | immediate t =>
    obtain ⟨hlow, hhigh⟩ : (i.toNat : Int) < t ∧ t ≤ p.lastIndex := hahead
    exact ⟨t, rfl, by omega⟩
  | register j => exact absurd hahead id
  | cell j => exact absurd hahead id
  | label name => exact absurd hahead id

/-- What only goes forward keeps control. -/
theorem Forward.enclosed (hp : p.Forward) : p.installed.Enclosed := by
  -- what lies ahead of a branch and no later than the last index lies in the program
  have hahead {ins : Instruction} (hins : ins ∈ p.installed.instructions)
      (hbranch : ins.opcode.isBranch = true) {o : Operand} (ho : o ∈ ins.operands) :
      ∃ t : Int, o = .immediate t ∧ 0 ≤ t ∧ t < p.installed.size := by
    obtain ⟨k, hk⟩ := Array.mem_iff_getElem?.mp hins
    have hfetch : p.installed.fetch k = .ok ins := fetch_eq_ok_iff.mpr ⟨by omega, hk⟩
    obtain ⟨t, rfl, hlow, hhigh⟩ := hp.isAhead hfetch hbranch ho
    unfold lastIndex at hhigh
    exact ⟨t, rfl, by omega⟩
  have hsize := hp.size
  unfold lastIndex Word.maximum at hsize
  exact
    { valid := validate_make hp.valid
      size := by omega
      closed := p.stopsAt_lastIndex
      static := fun ins hins _ =>
        { target := fun hbranch o ho => (hahead hins hbranch ho).imp fun _ h => h.1
          no_return := hp.no_return ins hins
          ip_kept := hp.ip_kept ins hins }
      targets := fun ins hins hbranch t ht => by
        obtain ⟨t', ht', hbounds⟩ := hahead hins hbranch ht
        obtain rfl := Operand.immediate.inj ht'
        exact hbounds }

/-- Whatever comes next is ahead. -/
theorem Forward.lt_of_leadsTo (hp : p.Forward) {i j : Int} (h : p.installed.LeadsTo i j) :
    i < j := by
  obtain ⟨ins, hfetch, -, rfl | ⟨hbranch, hj⟩⟩ := h
  · omega
  · obtain ⟨t, ht, hlow, -⟩ := hp.isAhead hfetch hbranch hj
    obtain rfl := Operand.immediate.inj ht
    exact hlow

end Program

/-! ### The number of rounds -/

namespace Run

variable {p : Program}

/-- **Every round moves the run on.** After `n` rounds it has executed `n` instructions, and it is
at least as far from its start. -/
theorem advanced_of_running (hp : p.Forward) (s : Session) {n : Nat}
    (hrun : (after p.installed n (start p.installed s)).status = .running) :
    (after p.installed n (start p.installed s)).steps = n ∧
      p.start + n ≤ (after p.installed n (start p.installed s)).position := by
  induction n with
  | zero =>
    refine ⟨rfl, ?_⟩
    rw [after, position_start hp.enclosed]
    exact Int.le_of_eq (Int.add_zero _)
  | succ n ih =>
    have hbefore := running_of_le (Nat.le_succ n) hrun
    obtain ⟨hsteps, hposition⟩ := ih hbefore
    obtain ⟨hin, -⟩ := inside_of_running hp.enclosed s hbefore
    rw [after_succ] at hrun ⊢
    obtain ⟨hsteps', -, hleads⟩ := (Round.of_enclosed hp.enclosed hbefore hin).of_running hrun
    -- the round adds one to the count and at least one to the position
    have hahead := hp.lt_of_leadsTo hleads
    exact ⟨by omega, by omega⟩

/-- A run from a machine has halted as a run without loops does: at an end, or by a fault of an
instruction, and after no more instructions than there are between start and end. -/
structure Halted (p : Program) (m : Machine) (r : Run) : Prop where
  stopped : r.status ≠ .running
  finished : r.status = .finished →
    p.installed.StopsAt r.position ∧ (r.steps : Int) ≤ p.lastIndex - p.start
  faulted : ∀ fault, r.status = .faulted fault →
    fault.OfInstruction (shows p.installed r) m.released ∧ fault.isExecution = false ∧
      (r.steps : Int) < p.lastIndex - p.start

/-- There is no room for a run that goes on longer. -/
theorem not_running (hp : p.Forward) (s : Session) {n : Nat} (hn : p.lastIndex - p.start < n) :
    (after p.installed n (start p.installed s)).status ≠ .running := by
  intro hrun
  -- as far from the start as that, the run would be outside its program
  obtain ⟨-, hposition⟩ := advanced_of_running hp s hrun
  obtain ⟨hin, -⟩ := inside_of_running hp.enclosed s hrun
  unfold Program.lastIndex at hn
  omega

/-- A run that has stopped is judged by its last round, before which it was at most as far as the
instructions it had executed. -/
theorem halted_of_stopped (hp : p.Forward) (m : Machine) (w : Monitor) {n : Nat}
    (hstop : (after p.installed n (start p.installed ⟨m, w⟩)).status ≠ .running) :
    (after p.installed n (start p.installed ⟨m, w⟩)).Halted p m := by
  obtain ⟨k, hrunning, hreleased, hround⟩ := exists_last_of_enclosed hp.enclosed ⟨m, w⟩ hstop
  obtain ⟨hsteps, hposition⟩ := advanced_of_running hp ⟨m, w⟩ hrunning
  obtain ⟨hin, -⟩ := inside_of_running hp.enclosed ⟨m, w⟩ hrunning
  refine ⟨hstop, fun hfinished => ?_, fun fault hfaulted => ?_⟩
  · -- the last round has moved nothing, so what bounds the position bounds the count
    obtain ⟨hsteps', hposition', hstops⟩ := hround.of_finished hfinished
    rw [hposition']
    refine ⟨hstops, ?_⟩
    unfold Program.lastIndex
    omega
  · -- only an end can stand at the last index, so a failure comes before it
    obtain ⟨hsteps', hfault, hbefore⟩ := hround.of_faulted hfaulted
    rw [hreleased, shows_after, ← shows_after _ _ n] at hfault
    refine ⟨hfault, hfault.isExecution_eq_false, ?_⟩
    unfold Program.lastIndex
    omega

end Run

/-! ### Faults that are told -/

/-- A refused access that can be told. -/
def Fault.isMemoryError (f : Fault) : Bool := f.isMemory && f.isTold

/-- On a block that is held, a fault of an instruction is an error of the memory or of a division
exactly if it can be told. -/
theorem Fault.OfInstruction.raised_iff {f : Fault} {shows : Bool}
    (h : f.OfInstruction shows false) :
    f.isMemoryError = true ∨ f.isDivision = true ↔ f.isTold = true := by
  unfold isMemoryError
  cases f with
  | outsideBlock | stackOverflow | stackUnderflow | noSuchCell | wideIndex =>
    simp [isMemory, isDivision]
  | zeroDivisor | zeroModulus => simp [isDivision, isTold, numbers]
  | unwritable => simp [isMemory, isDivision, isTold]
  | _ => simp [OfInstruction, isMemory, isDivision] at h

/-- What cannot be told is a bounds check, or a number that was to be shown. -/
theorem Fault.OfInstruction.untold_cases {f : Fault} {shows released : Bool}
    (h : f.OfInstruction shows released) (huntold : f.isTold = false) :
    f.isBoundsCheck = true ∨ shows = true ∧ f = .unwritable := by
  cases f with
  | outsideBlock | stackOverflow | stackUnderflow => exact Or.inl rfl
  | unwritable =>
    rcases h with h | h | h | ⟨-, h | h⟩
    · cases h
    · cases h
    · exact Or.inr h
    · cases h
    · cases h
  | noSuchCell | wideIndex | zeroDivisor | zeroModulus | releasedRead | releasedWrite =>
    cases huntold
  | _ => simp [OfInstruction, isMemory, isDivision] at h

/-- A sound machine tells all faults of a program whose cells can be written, unless there were more
failures before than a number could count. -/
theorem Run.told_of_sound {p : Program} (hp : p.Forward) {m : Machine} {w : Monitor} {l : Layout}
    {k n : Nat} (hm : m.Sound l k) (hlegible : p.installed.Legible)
    (hbound : 2 * sizeLimit + (k + 1 : Nat) < Text.writableBound) {fault : Fault}
    (hfault : (after p.installed n (start p.installed ⟨m, w⟩)).status = .faulted fault) :
    fault.isTold = true := by
  have horder := (safety l p.installed.Legible k).after
    (.start (s := ⟨m, w⟩) hm p.installed) (safety_admitsProgram hp.enclosed.valid l k) n
  unfold Discipline.InOrder at horder
  rw [hfault] at horder
  exact horder.told hlegible hbound

/-- The run of a program on a machine, as it is installed, after some rounds. -/
def Program.runOn (p : Program) (m : Machine) (w : Monitor) (n : Nat) : Run :=
  Run.after p.installed n (Run.start p.installed ⟨m, w⟩)

/-- **Programs without loops halt.** From any state, after one round more than there are indices
between the start and the last one, the run has halted. It has come to an end, with no more
instructions executed than there are such indices; or an instruction has failed before that, by an
access to the block or the stack that was refused, by a division by zero or by a number of too many
digits that was to be shown, and never because the program was left. On a block that is held, the
fault is an error of the memory or of a division exactly if it can be told. One that cannot be told
is a bounds check, and then the machine is a checked one, or it is a number that was to be shown,
and then the run is traced or the program prints. On a sound machine every fault can be told. -/
theorem forward_program_halts {p : Program} (hp : p.Forward) (m : Machine) (w : Monitor) {n : Nat}
    (hn : p.lastIndex - p.start < n) :
    (p.runOn m w n).Halted p m ∧
    (∀ fault, (p.runOn m w n).status = .faulted fault →
      (m.released = false →
        (fault.isMemoryError = true ∨ fault.isDivision = true ↔ fault.isTold = true)) ∧
      (fault.isTold = false →
        m.checked = true ∧ fault.isBoundsCheck = true ∨
        (w.tracing = true ∨ ∃ ins ∈ p.installed.instructions, ins.opcode.prints = true) ∧
          fault = .unwritable)) ∧
    (m.checked = false → ¬ (p.runOn m w n).FailedBy Fault.isBoundsCheck) ∧
    ∀ l k, m.Sound l k → p.installed.Legible →
      2 * sizeLimit + (k + 1 : Nat) < Text.writableBound →
        ∀ fault, (p.runOn m w n).status = .faulted fault → fault.isTold = true := by
  have hhalted := Run.halted_of_stopped hp m w (Run.not_running hp ⟨m, w⟩ hn)
  have hunchecked (hchecked : m.checked = false) :
      ¬ (p.runOn m w n).FailedBy Fault.isBoundsCheck :=
    Run.unchecked_not_failedBy hchecked rfl n
  refine ⟨hhalted, fun fault hfault => ⟨fun hheld => ?_, fun huntold => ?_⟩, hunchecked,
    fun l k hm hlegible hbound fault hfault => Run.told_of_sound hp hm hlegible hbound hfault⟩
  · have hinstruction := (hhalted.faulted fault hfault).1
    rw [hheld] at hinstruction
    exact hinstruction.raised_iff
  · rcases (hhalted.faulted fault hfault).1.untold_cases huntold with hbounds | ⟨hshows, rfl⟩
    · refine Or.inl ⟨?_, hbounds⟩
      -- an unchecked machine makes no bounds checks
      cases hchecked : m.checked with
      | true => rfl
      | false => exact absurd ⟨fault, hfault, hbounds⟩ (hunchecked hchecked)
    · rw [Run.shows_after] at hshows
      exact Or.inr ⟨Run.shows_eq_true_iff.mp hshows, rfl⟩

/-- Branches that skip an end in the middle, a zero divisor and each other. -/
def skippingProgram : Program :=
  .make #[⟨.call, [.immediate 2]⟩, .sentinel, ⟨.cmp, [.register 0, .immediate 0]⟩,
    ⟨.je, [.immediate 5]⟩, ⟨.div, [.register 0, .immediate 0]⟩, ⟨.pop, [.register 1]⟩] 0
    .empty .empty

/-- On a checked machine with a stack of four cells it halts at the last end. -/
theorem skippingProgram_halts :
    skippingProgram.Forward ∧ skippingProgram.lastIndex = 6 ∧
    (skippingProgram.runOn (Layout.machine ⟨64, 16, true⟩) {} 7).Halted skippingProgram
      (Layout.machine ⟨64, 16, true⟩) ∧
    (skippingProgram.runOn (Layout.machine ⟨64, 16, true⟩) {} 7).status = .finished ∧
    (skippingProgram.runOn (Layout.machine ⟨64, 16, true⟩) {} 7).steps = 4 := by
  have hp : skippingProgram.Forward := ⟨rfl, by decide, by decide, by decide, by decide⟩
  exact ⟨hp, rfl, (forward_program_halts hp _ _ (by decide)).1, rfl, rfl⟩

/-- A program that prints a register. -/
def onePrint : Program := .make #[⟨.prn, [.register 0]⟩] 0 .empty .empty

/-- An unchecked machine whose first register has one digit more than can be written. -/
def longRegister : Machine :=
  let m := Layout.machine ⟨64, 16, false⟩
  { m with registers := m.registers.set 0 (.int Text.writableBound) }

/-- Both exceptions are real. On a checked machine, a push to a stack that is far below its limit
fails with an overflow that cannot be told, so it is no error of the memory. On an unchecked one, a
register can be too long to be printed. -/
theorem far_push_untold :
    Run.onePush.Forward ∧ Run.farBase.released = false ∧
    (¬ ∀ n fault, (Run.onePush.runOn Run.farBase {} n).status = .faulted fault →
      fault.isMemoryError = true ∨ fault.isDivision = true) ∧
    onePrint.Forward ∧ longRegister.released = false ∧
    ¬ ∀ n fault, (onePrint.runOn longRegister {} n).status = .faulted fault →
      fault.isMemoryError = true ∨ fault.isDivision = true := by
  refine ⟨⟨rfl, by decide, by decide, by decide, by decide⟩, rfl, fun hraised => ?_,
    ⟨rfl, by decide, by decide, by decide, by decide⟩, rfl, fun hraised => ?_⟩
  · have hfault : (Run.onePush.runOn Run.farBase {} 1).status
        = .faulted (.stackOverflow 15 Text.writableBound) := by decide +kernel
    exact absurd (hraised 1 _ hfault) (by decide +kernel)
  · have hfault : (onePrint.runOn longRegister {} 1).status = .faulted .unwritable := by
      decide +kernel
    exact absurd (hraised 1 _ hfault) (by decide +kernel)

end CellMachine
