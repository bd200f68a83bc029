import CellMachine.Context
import CellMachine.Proofs.SoundMachine

/-!
# The faults of a validated program

A context that was created from a layout, in which programs are loaded, run and stepped through in
any order, holds a sound machine and a validated program at all times (`Context.Reachable.sound`).
So a step or a run fails only in the ways that a host is told of, whatever happened before it, with
one exception: a number has too many digits to be written
(`Context.reachable_faults_documented_iff`). Validation bounds the numbers of a program apart from
the indices of cells, and a single index is enough for the exception
(`Context.far_cell_undocumented`).
-/

namespace CellMachine

open Machine

/-- A host meets the fault as one of the errors that it was told to expect: the fault is foreseen,
and it can be told. -/
def Fault.Documented (checked : Bool) (f : Fault) : Prop := f.Foreseen checked ∧ f.isTold = true

/-! ### Fresh contexts -/

namespace Layout

/-- The machine that a fresh context of a layout has. -/
def machine (l : Layout) : Machine :=
  ({ cellCount := (l.memorySize / wordSize).toNat, checked := l.checked } : Machine).createStack
    l.stackSize

/-- Sizes that are accepted leave room for the stack. -/
theorem validateSizes_eq_ok {memorySize stackSize : Int}
    (h : validateSizes memorySize stackSize = .ok ()) : 0 ≤ stackSize ∧ stackSize ≤ memorySize := by
  unfold validateSizes at h
  -- three tests, of which the last two are the statement
  split at h
  · cases h
  · split at h
    · cases h
    · split at h
      · cases h
      · omega

/-- The machine of a layout whose sizes fit is sound. -/
theorem machine_sound {l : Layout} (hstack : 0 ≤ l.stackSize ∧ l.stackSize ≤ l.memorySize)
    (hmemory : l.memorySize < sizeLimit) : l.machine.Sound l 0 := by
  have hcount : ((l.memorySize / wordSize).toNat : Int) ≤ sizeLimit := by
    unfold wordSize
    omega
  have htop : -reach 0 ≤ ((l.memorySize / wordSize).toNat : Int) ∧
      ((l.memorySize / wordSize).toNat : Int) ≤ reach 0 := by
    unfold reach
    unfold sizeLimit at hcount ⊢
    omega
  have hblank : Sound l 0
      { cellCount := (l.memorySize / wordSize).toNat, checked := l.checked
        stackSize := l.stackSize } :=
    { held := rfl
      checked := rfl
      count := hcount
      stack := ⟨hstack.1, Int.le_trans hstack.2 (Int.le_of_lt hmemory)⟩
      cells := fun c => by
        rw [Cells.get_zero]
        decide
      registers := fun s => by
        rw [RegisterFile.get_initial]
        decide }
  -- the stack base and the stack pointer are set one past the block
  exact (hblank.setRegister Slot.bp (v := .address _) htop).setRegister Slot.sp
    (v := .address _) htop

end Layout

/-- A block is allocated only below the limit, and it is empty at first. -/
theorem Machine.create_eq_ok {size : Int} {checked : Bool} {m : Machine}
    (h : Machine.create size checked = .ok m) :
    size < sizeLimit ∧ m = { cellCount := (size / wordSize).toNat, checked } := by
  unfold Machine.create at h
  split at h
  · cases h
  · split at h
    · cases h
    · split at h
      · cases h
      · next hlimit => exact ⟨Int.not_le.mp hlimit, (Except.ok.inj h).symm⟩

namespace Context

/-- A context is created only from sizes that fit, with the machine of its layout and the empty
program. -/
theorem create_eq_ok {l : Layout} {c : Context} (h : create l = .ok c) :
    (0 ≤ l.stackSize ∧ l.stackSize ≤ l.memorySize) ∧ l.memorySize < sizeLimit ∧
      c.machine = some l.machine ∧ c.program = some .empty := by
  unfold create at h
  split at h
  · cases h
  · next hsizes =>
    split at h
    · cases h
    · cases h
    · next m hm =>
      obtain ⟨hlimit, rfl⟩ := Machine.create_eq_ok hm
      obtain rfl := Except.ok.inj h
      exact ⟨Layout.validateSizes_eq_ok hsizes, hlimit, rfl, rfl⟩

/-! ### Reachable contexts -/

/-- The context that an operation of a host leaves, whether or not it failed. -/
def left {α : Type} : EStateM.Result Failure Context α → Context
  | .ok _ c => c
  | .error _ c => c

/-- **Reachable contexts.** A fresh context in which programs were loaded, in any of the three ways,
run and stepped through. Between its steps a host moves the instruction pointer, and it may turn
tracing on and off. The number counts the runs and the steps, each of which may have failed. -/
inductive Reachable (l : Layout) : Nat → Context → Prop
  | create {c : Context} (h : create l = .ok c) : Reachable l 0 c
  | load {k : Nat} {c : Context} (p : Program) (h : Reachable l k c) :
    Reachable l k (left (load p c))
  | loadSource {k : Nat} {c : Context} (files : Files.Live) (rounds : Nat) (source : String)
    (base : Option Files.Path) (h : Reachable l k c) :
    Reachable l k (left (loadSource files rounds source base c))
  | interpret {k : Nat} {c : Context} (files : Files.Live) (rounds : Nat) (filename : String)
    (h : Reachable l k c) : Reachable l k (left (interpret files rounds filename c))
  | run {k : Nat} {c : Context} (rounds : Nat) (h : Reachable l k c) :
    Reachable l (k + 1) (left (run rounds c))
  | step {k : Nat} {c : Context} (h : Reachable l k c) : Reachable l (k + 1) (left (step c))
  | moveTo {k : Nat} {c : Context} (index : Int) (h : Reachable l k c) :
    Reachable l k (left (onMachine (modify (·.setIp index)) c))
  | enableTrace {k : Nat} {c : Context} (on : Bool) (h : Reachable l k c) :
    Reachable l k { c with monitor := c.monitor.setTracing on }

/-- A context with a sound machine and a validated program. -/
structure Sound (l : Layout) (k : Nat) (c : Context) : Prop where
  machine : ∃ m, c.machine = some m ∧ m.Sound l k
  program : ∃ p, c.program = some p ∧ p.validate = .ok ()

variable {l : Layout} {k : Nat} {c : Context}

/-- A fresh context is sound: it has the machine of its layout and the empty program, which is
valid. -/
theorem sound_of_create (h : create l = .ok c) : c.Sound l 0 := by
  obtain ⟨hstack, hmemory, hmachine, hprogram⟩ := create_eq_ok h
  exact ⟨⟨_, hmachine, Layout.machine_sound hstack hmemory⟩, ⟨_, hprogram, rfl⟩⟩

/-- A valid program is loaded. -/
theorem load_eq_ok {p : Program} (h : p.validate = .ok ()) (c : Context) :
    load p c = .ok () ({ c with program := some p.installed }.log (loadedRecord p)) := by
  unfold load
  rw [h]
  rfl

/-- A program is loaded only if it is valid. -/
theorem Sound.load (h : c.Sound l k) (p : Program) : (left (load p c)).Sound l k := by
  unfold Context.load
  cases hv : p.validate with
  | error defect => exact h
  | ok _ => exact ⟨h.machine, ⟨_, rfl, Program.validate_make hv⟩⟩

/-- A source is assembled and its program loaded, or nothing is. -/
theorem Sound.loadSource (h : c.Sound l k) (files : Files.Live) (rounds : Nat) (source : String)
    (base : Option Files.Path) : (left (loadSource files rounds source base c)).Sound l k := by
  unfold Context.loadSource
  split
  · exact ⟨h.machine, h.program⟩
  · next p log _ =>
    -- assembling writes to the log only
    have hlog : (c.withLog log).Sound l k := ⟨h.machine, h.program⟩
    exact hlog.load p

/-- A file is read and its source loaded, or nothing is. -/
theorem Sound.interpret (h : c.Sound l k) (files : Files.Live) (rounds : Nat) (filename : String) :
    (left (interpret files rounds filename c)).Sound l k := by
  unfold Context.interpret
  split
  · exact ⟨h.machine, h.program⟩
  · exact ⟨h.machine, h.program⟩
  · next source log _ =>
    have hlog : (c.withLog log).Sound l k := ⟨h.machine, h.program⟩
    have hload := hlog.loadSource files rounds source.text (some source.path.parent)
    split
    · next c' hc =>
      rw [hc] at hload
      exact hload
    · next failure c' hc =>
      rw [hc] at hload
      -- a failure is reported and logged, or handed on; neither touches the machine
      split
      · exact ⟨hload.machine, hload.program⟩
      · exact hload

/-- The host may set the instruction pointer to any index, as it is kept as a word. -/
theorem Sound.moveTo (h : c.Sound l k) (index : Int) :
    (left (onMachine (modify (·.setIp index)) c)).Sound l k := by
  obtain ⟨machine, program, w⟩ := c
  obtain ⟨⟨m, rfl, hm⟩, hp⟩ := h
  exact ⟨⟨_, rfl, hm.setIp index⟩, hp⟩

/-- How a step or a run fails. The fault is foreseen, or it is a number that cannot be written. It
is documented exactly if it can be told, and it can be told if no number of the program, and no
number of runs and steps, is out of all proportion. -/
def FailsBy (l : Layout) (p : Program) (k : Nat) (failure : Failure) : Prop :=
  ∃ f, failure = .machine f ∧ (f.Foreseen l.checked ∨ f = .unwritable) ∧
    (f.Documented l.checked ↔ f.isTold = true) ∧
    (p.Legible → 2 * sizeLimit + k < Text.writableBound → f.Documented l.checked)

/-- What a sound machine fails by is what a host is to expect. -/
theorem failsBy_of_failed {l : Layout} {p : Program} {k : Nat} {f : Fault} {m : Machine}
    (h : Failed l p.Legible k f m) : FailsBy l p k (.machine f) := by
  have hdocumented : f.isTold = true → f.Documented l.checked := fun ht => by
    refine ⟨h.cause.resolve_right ?_, ht⟩
    rintro rfl
    cases ht
  exact ⟨f, rfl, h.cause, ⟨And.right, hdocumented⟩, fun hp hk => hdocumented (h.told hp hk)⟩

/-- The context that a session belongs to. -/
def ofSession (p : Program) (s : Session) : Context := ⟨some s.machine, some p, s.monitor⟩

/-- A step of a context is the step of its session. -/
theorem step_ofSession (p : Program) (s : Session) :
    step (ofSession p s) =
      match s.step p with
      | .ok () s' => .ok () (ofSession p s')
      | .error f s' => .error (.machine f) (ofSession p s') := by
  obtain ⟨m, w⟩ := s
  cases h : Session.step p ⟨m, w⟩ with
  | ok a s' => simp only [ofSession, step, h]
  | error f s' => simp only [ofSession, step, h]

/-- A run of a context is the run of its session, and how it ended says what the host is given. -/
theorem run_ofSession (p : Program) (s : Session) (rounds : Nat) :
    run rounds (ofSession p s) =
      match Run.after p rounds (Run.start p s) with
      | ⟨s', steps, .finished⟩ => .ok steps (ofSession p s')
      | ⟨s', _, .faulted f⟩ => .error (.machine f) (ofSession p s')
      | ⟨s', _, .running⟩ => .error .unfinished (ofSession p s') := by
  obtain ⟨m, w⟩ := s
  cases h : Run.after p rounds (Run.start p ⟨m, w⟩) with
  | mk s' steps status =>
    cases status with
    | running => simp only [ofSession, run, h]
    | finished => simp only [ofSession, run, h]
    | faulted f => simp only [ofSession, run, h]

variable {p : Program} {s : Session}

/-- A context is sound if its machine and its program are. -/
theorem sound_ofSession (hm : s.machine.Sound l k) (hp : p.validate = .ok ()) :
    (ofSession p s).Sound l k :=
  ⟨⟨s.machine, rfl, hm⟩, ⟨p, rfl, hp⟩⟩

/-- A sound context has a session. -/
theorem Sound.eq_ofSession (h : c.Sound l k) :
    ∃ p s, c = ofSession p s ∧ s.machine.Sound l k ∧ p.validate = .ok () := by
  obtain ⟨machine, program, w⟩ := c
  obtain ⟨⟨m, rfl, hm⟩, ⟨p, rfl, hp⟩⟩ := h
  exact ⟨p, ⟨m, w⟩, rfl, hm, hp⟩

/-- **One step** leaves a sound context and fails only in the ways above. -/
theorem sound_step (hm : s.machine.Sound l k) (hp : p.validate = .ok ()) :
    (left (step (ofSession p s))).Sound l (k + 1) ∧
      ∀ failure c', step (ofSession p s) = .error failure c' → FailsBy l p (k + 1) failure := by
  have hstep := Discipline.step (D := safety l p.Legible k) (w := s.monitor) hm
    (safety_admitsProgram hp l k)
  rw [step_ofSession]
  cases hx : s.step p with
  | ok a s' =>
    rw [hx] at hstep
    refine ⟨sound_ofSession hstep.succ hp, ?_⟩
    intro failure c' h
    cases h
  | error f s' =>
    rw [hx] at hstep
    refine ⟨sound_ofSession hstep.sound hp, ?_⟩
    intro failure c' h
    obtain ⟨rfl, -⟩ := EStateM.Result.error.inj h
    exact failsBy_of_failed hstep

/-- **A run** of any number of rounds leaves a sound context, and fails only for want of rounds or
in the ways above. Whatever its length, it fails once at most. -/
theorem sound_run (hm : s.machine.Sound l k) (hp : p.validate = .ok ()) (rounds : Nat) :
    (left (run rounds (ofSession p s))).Sound l (k + 1) ∧
      ∀ failure c', run rounds (ofSession p s) = .error failure c' →
        failure = .unfinished ∨ FailsBy l p (k + 1) failure := by
  have hafter := Discipline.after (D := safety l p.Legible k) (.start hm p)
    (safety_admitsProgram hp l k) rounds
  rw [run_ofSession]
  -- what is left of the run is how it ended
  generalize Run.after p rounds (Run.start p s) = r at hafter ⊢
  obtain ⟨s', steps, status⟩ := r
  cases status with
  | running =>
    refine ⟨sound_ofSession (Sound.succ hafter) hp, ?_⟩
    intro failure c' h
    obtain ⟨rfl, -⟩ := EStateM.Result.error.inj h
    exact Or.inl rfl
  | finished =>
    refine ⟨sound_ofSession (Sound.succ hafter) hp, ?_⟩
    intro failure c' h
    cases h
  | faulted f =>
    refine ⟨sound_ofSession hafter.sound hp, ?_⟩
    intro failure c' h
    obtain ⟨rfl, -⟩ := EStateM.Result.error.inj h
    exact Or.inr (failsBy_of_failed hafter)

/-- **Every reachable context is sound.** -/
theorem Reachable.sound (h : Reachable l k c) : c.Sound l k := by
  -- along the operations of the host; those that execute are the step and the run above
  induction h with
  | create h => exact sound_of_create h
  | load p _ ih => exact ih.load p
  | loadSource files rounds source base _ ih => exact ih.loadSource files rounds source base
  | interpret files rounds filename _ ih => exact ih.interpret files rounds filename
  | moveTo index _ ih => exact ih.moveTo index
  | enableTrace on _ ih => exact ⟨ih.machine, ih.program⟩
  | run rounds _ ih =>
    obtain ⟨p, s, rfl, hm, hp⟩ := ih.eq_ofSession
    exact (sound_run hm hp rounds).1
  | step _ ih =>
    obtain ⟨p, s, rfl, hm, hp⟩ := ih.eq_ofSession
    exact (sound_step hm hp).1

/-- **A validated program fails only in the documented ways**, unless a number has too many digits.
Whatever was loaded, run and stepped through before, a reachable context has a machine and a
program, and every register that the program names exists. A step or a run that fails does so by a
fault that leaves the program, fails a bounds check, divides by zero or, on an unchecked machine,
finds no cell, or because of a number that cannot be written; a run apart that was not given the
rounds it needs. What the host is given is one of the documented errors exactly if the fault can be
told, and that is so if the cells of the program have indices of few enough digits and the host has
not run and stepped through programs more often than there are numbers of that length. -/
theorem reachable_faults_documented_iff (h : Reachable l k c) :
    ∃ m p, c.machine = some m ∧ c.program = some p ∧ m.checked = l.checked ∧
      (∀ ins ∈ p.instructions, ins.opcode ≠ .stop → ∀ i, Operand.register i ∈ ins.operands →
        ∀ missing, ∃ s, slot missing i = .ok s) ∧
      (∀ failure c', step c = .error failure c' → FailsBy l p (k + 1) failure) ∧
      (∀ rounds failure c', run rounds c = .error failure c' →
        failure = .unfinished ∨ FailsBy l p (k + 1) failure) := by
  obtain ⟨p, s, rfl, hm, hp⟩ := h.sound.eq_ofSession
  refine ⟨s.machine, p, rfl, rfl, hm.checked, ?_, (sound_step hm hp).2,
    fun n => (sound_run hm hp n).2⟩
  intro ins hins hstop i hi missing
  -- validation has looked at every register
  have hwf := (Program.validate_eq_ok_iff.mp hp).2 ins hins hstop
  obtain ⟨slot, -, hslot⟩ := slot_of_inRange (hwf.register hi) missing
  exact ⟨slot, hslot⟩

/-- A program that pushes and never pops. -/
def pushLoop : Program :=
  .make #[⟨.push, [.immediate 1]⟩, ⟨.jmp, [.immediate 0]⟩] 0 .empty .empty

/-- On a checked stack of four cells it overflows in its ninth round, and the host is told so. -/
theorem pushLoop_overflow_documented :
    ∃ c c', Reachable ⟨64, 16, true⟩ 0 c ∧
      run 9 c = .error (.machine (.stackOverflow 11 12)) c' ∧
      (Fault.stackOverflow 11 12).Documented true := by
  obtain ⟨c₀, hc₀⟩ : ∃ c₀, create ⟨64, 16, true⟩ = .ok c₀ := ⟨_, rfl⟩
  have hc : Reachable ⟨64, 16, true⟩ 0 (left (load pushLoop c₀)) := .load pushLoop (.create hc₀)
  have hrun : ∃ c', run 9 (left (load pushLoop c₀))
      = .error (.machine (.stackOverflow 11 12)) c' := by
    obtain rfl := Except.ok.inj hc₀
    exact ⟨_, rfl⟩
  obtain ⟨c', hc'⟩ := hrun
  obtain ⟨m, p, -, -, -, -, -, hfaults⟩ := reachable_faults_documented_iff hc
  -- nine rounds are enough, so the failure is the fault
  rcases hfaults 9 _ c' hc' with h | ⟨f, hf, -, hiff, -⟩
  · cases h
  · obtain rfl := Failure.machine.inj hf
    exact ⟨_, c', hc, hc', hiff.mpr (by decide +kernel)⟩

/-- A program that reads a cell whose index has one digit more than can be written. -/
def farRead : Program :=
  .make #[⟨.mov, [.register 0, .cell Text.writableBound]⟩] 0 .empty .empty

/-- The fault by which an operation of a host failed. -/
def faultOf? {α : Type} : EStateM.Result Failure Context α → Option Fault
  | .error (.machine f) _ => some f
  | _ => none

/-- An operation that failed by a fault is an error with it. -/
theorem eq_error_of_faultOf? {α : Type} {x : EStateM.Result Failure Context α} {f : Fault}
    (h : faultOf? x = some f) : ∃ c', x = .error (.machine f) c' := by
  unfold faultOf? at h
  split at h
  · next f' c' =>
    obtain rfl := Option.some.inj h
    exact ⟨c', rfl⟩
  · cases h

/-- The exception is real: the program is valid, and on a fresh checked context its only step fails
with a bounds check that cannot be told. -/
theorem far_cell_undocumented :
    ∃ c₀ c' f, create ⟨64, 16, true⟩ = .ok c₀ ∧ farRead.validate.toOption = some () ∧
      Reachable ⟨64, 16, true⟩ 0 (left (load farRead c₀)) ∧
      step (left (load farRead c₀)) = .error (.machine f) c' ∧ f.isBoundsCheck = true ∧
      ¬ f.Documented true := by
  obtain ⟨c₀, hc₀⟩ : ∃ c₀, create ⟨64, 16, true⟩ = .ok c₀ := ⟨_, rfl⟩
  have hfault : faultOf? (step (left (load farRead c₀)))
      = some (.outsideBlock Text.writableBound 16) := by
    obtain rfl := Except.ok.inj hc₀
    decide +kernel
  obtain ⟨c', hstep⟩ := eq_error_of_faultOf? hfault
  have huntold : (Fault.outsideBlock Text.writableBound 16).isTold = false := by decide +kernel
  refine ⟨c₀, c', _, hc₀, by decide +kernel, .load farRead (.create hc₀), hstep, rfl, fun h => ?_⟩
  rw [h.2] at huntold
  cases huntold

end Context

end CellMachine
