import CellMachine.CommandLine.Command
import CellMachine.Proofs.FaultSafety
import CellMachine.Proofs.SourceLoading

/-!
# The exit status of a run

A command that gets as far as a program (`Launch`) runs it on the machine of the layout that was
asked for. Then all that matters to the exit status is whether the program is valid and how its run
ends (`Launch.status_execute`): neither what is told and logged on the way nor whether the run is
traced has a part in it. A program from a source file refers to cells by 32-bit indices, and the
machine is a fresh one, so no number is met that has too many digits for a line of the trace or for
the message of a fault (`Launch.writableNext`, `Launch.documented_of_faulted`).

A run that ends by itself has one of three ends. It reaches the sentinel, it meets a fault that the
command foresees, or it meets the fault of an unchecked block that no cell answers. The last of
these is not caught. So the exit status covers every run on a checked machine, and on an unchecked
one every run that keeps to the cells (`exit_status_covers_iff`).
-/

namespace CellMachine.CommandLine

open Context

/-- The exit status for the end of a run. -/
def statusOf : Status → Except Escape Nat
  | .finished => .ok 0
  | .faulted fault => if fault.isCaught then .ok 2 else .error (.failed (.machine fault))
  | .running => .error (.failed .unfinished)

/-! ### From the loaded program to the command -/

/-- A loaded program is run, and whether it is traced makes no difference while all lines can be
written. -/
theorem status_runLoaded (budget : Budget) (o : Options) (told : String) {p : Program}
    {m : Machine} (hlines : ∀ k, Run.WritableNext p (Run.after p k (Run.start p ⟨m, {}⟩)))
    (w : Monitor) :
    (runLoaded budget o told ⟨some m, some p, w⟩).status =
      statusOf (Run.after p budget.execution (Run.start p ⟨m, {}⟩)).status := by
  -- the monitor of the context has a log by now, and traces if that was asked for
  have halike : Run.Alike (Run.after p budget.execution (Run.start p ⟨m, {}⟩))
      (Run.after p budget.execution (Run.start p ⟨m, w.setTracing o.trace⟩)) :=
    Run.after_alike_of_writable (Run.start_alike p m _ _) fun k _ => hlines k
  have hrun := run_ofSession p ⟨m, w.setTracing o.trace⟩ budget.execution
  unfold ofSession at hrun
  unfold runLoaded
  dsimp only at hrun ⊢
  rw [hrun, halike.status]
  cases Run.after p budget.execution (Run.start p ⟨m, w.setTracing o.trace⟩) with
  | mk s steps status =>
    cases status with
    | running => rfl
    | finished => rfl
    | faulted fault =>
      dsimp only [statusOf]
      split
      · rfl
      · rfl

/-- A source file that has a program is run, unless the program is not valid. -/
theorem status_runInput {files : Files.Live} {budget : Budget} {input : String} {c : Context}
    {p : Program} {m : Machine} (hm : c.machine = some m)
    (hp : programOf? files budget.expansion input c.monitor.log = some p)
    (hlines : p.validate = .ok () →
      ∀ k, Run.WritableNext p (Run.after p k (Run.start p ⟨m, {}⟩)))
    (o : Options) (told : String) :
    (runInput files budget input o told c).status =
      match p.validate with
      | .ok () => statusOf (Run.after p budget.execution (Run.start p ⟨m, {}⟩)).status
      | .error _ => .ok 1 := by
  have hcases := interpret_interpreted files budget.expansion input c
  unfold runInput
  generalize interpret files budget.expansion input c = result at hcases ⊢
  cases hcases with
  | @loaded p' log hprogram hvalid =>
    obtain rfl : p' = p := Option.some.inj (hprogram.symm.trans hp)
    obtain ⟨machine, program, w⟩ := c
    obtain rfl : machine = some m := hm
    rw [hvalid]
    exact status_runLoaded budget o told (hlines hvalid) _
  | refused h =>
    cases hvalid : p.validate with
    | ok _ => exact absurd hvalid (h p hp)
    | error defect => rfl
  | escaped h =>
    rw [hp] at h
    cases h

/-- Sizes that could be allocated can be told. -/
theorem exists_memoryLine? {layout : Layout} {c : Context} (h : create layout = .ok c) :
    ∃ line, memoryLine? layout = some line := by
  obtain ⟨hstack, hmemory, -, -⟩ := create_eq_ok h
  have hsize : ∀ n : Int, 0 ≤ n → n ≤ layout.memorySize → Text.integerText? n = some (toString n) := by
    intro n hlow hhigh
    have hwritable : Text.isWritable n = true :=
      Machine.isWritable_of_le_sizeLimit (by omega) (by omega)
    rw [Text.integerText?, if_pos hwritable]
  unfold memoryLine?
  rw [hsize layout.memorySize (Int.le_trans hstack.1 hstack.2) (Int.le_refl _),
    hsize layout.stackSize hstack.1 hstack.2]
  exact ⟨_, rfl⟩

/-! ### Launches -/

/-- **A command line that gets as far as a program.** It is understood and asks for a run, its log
file is opened, its layout is allocated, and the source file that it names has a program. -/
structure Launch (sinks : Log.Sinks) (budget : Budget) (words : List String) where
  input : String
  options : Options
  /-- The log and the files once the log is set up. -/
  opened : Log.Sinks
  profileName : String
  profile : Profile
  context : Context
  program : Program
  understood : readArguments words = .ok (.runProgram input options)
  runs : (options.tokens || options.listing) = false
  logged : sinks.configure (logSettings options) = .ok opened
  sized : profileOf options = .ok (profileName, profile)
  allocated : create profile.layout = .ok context
  compiled : programOf? opened.files budget.expansion input context.monitor.log = some program

namespace Launch

variable {sinks : Log.Sinks} {budget : Budget} {words : List String}

/-- The run of the program on a fresh machine, for as many rounds as the command has. -/
def run (l : Launch sinks budget words) : Run :=
  Run.after l.program budget.execution (Run.start l.program ⟨l.profile.layout.machine, {}⟩)

/-- The program refers to no cell by an index that cannot be written. -/
theorem legible (l : Launch sinks budget words) : l.program.Legible := by
  intro ins hins i hi
  obtain ⟨tokenLines, defines, hparse⟩ := exists_parse_of_programOf? l.compiled
  obtain ⟨hlow, hhigh⟩ := Assembly.cells_of_parse hparse hins hi
  refine Machine.isWritable_of_le_sizeLimit (by omega) ?_
  unfold Word.maximum at hhigh
  unfold Machine.sizeLimit
  omega

theorem sound (l : Launch sinks budget words) :
    l.profile.layout.machine.Sound l.profile.layout 0 := by
  obtain ⟨hstack, hmemory, -, -⟩ := create_eq_ok l.allocated
  exact Layout.machine_sound hstack hmemory

/-- **Every line of the trace can be written.** -/
theorem writableNext (l : Launch sinks budget words) (hvalid : l.program.validate = .ok ())
    (k : Nat) :
    Run.WritableNext l.program
      (Run.after l.program k (Run.start l.program ⟨l.profile.layout.machine, {}⟩)) := by
  refine writableNext_after (s := ⟨_, {}⟩) l.sound hvalid l.legible ?_ k
  have hsizes := Machine.sizes_lt_writableBound
  omega

/-- **The exit status** is that of the run, if the program is valid. -/
theorem status_execute (l : Launch sinks budget words) :
    (execute sinks budget words).outcome.status =
      match l.program.validate with
      | .ok () => statusOf l.run.status
      | .error _ => .ok 1 := by
  obtain ⟨-, -, hmachine, -⟩ := create_eq_ok l.allocated
  have hinput := status_runInput hmachine l.compiled l.writableNext l.options
  have hon : ∀ told, (runOn l.opened.files budget l.input l.options l.profile.layout told).status =
      (runInput l.opened.files budget l.input l.options told l.context).status := by
    intro told
    rw [runOn, l.allocated]
  have hrun : (runProgram l.opened.files budget l.input l.options).status =
      match l.program.validate with
      | .ok () => statusOf l.run.status
      | .error _ => .ok 1 := by
    unfold runProgram
    rw [l.sized]
    dsimp only
    -- with or without something told first, the same is run
    obtain ⟨line, hline⟩ := exists_memoryLine? l.allocated
    split
    · rw [hline]
      exact (hon _).trans (hinput _)
    · exact (hon _).trans (hinput _)
  unfold execute perform
  rw [l.understood]
  dsimp only
  rw [l.logged]
  dsimp only
  rw [if_neg (by rw [l.runs]; decide)]
  exact hrun

/-- **A run of a valid program that faults** does so in a documented way. -/
theorem documented_of_faulted (l : Launch sinks budget words)
    (hvalid : l.program.validate = .ok ()) {fault : Fault} (h : l.run.status = .faulted fault) :
    fault.Documented l.profile.layout.checked := by
  -- the end of the run, as a failure of the context that has the program
  have hfails : ∃ c', Context.run budget.execution
      (ofSession l.program ⟨l.profile.layout.machine, {}⟩) = .error (.machine fault) c' := by
    rw [run_ofSession]
    unfold run at h
    generalize Run.after l.program budget.execution
      (Run.start l.program ⟨l.profile.layout.machine, {}⟩) = r at h ⊢
    obtain ⟨s, steps, status⟩ := r
    obtain rfl : status = .faulted fault := h
    exact ⟨_, rfl⟩
  obtain ⟨c', hc'⟩ := hfails
  rcases (sound_run l.sound hvalid budget.execution).2 _ _ hc' with
    hunfinished | ⟨f, hf, -, -, hdocumented⟩
  · cases hunfinished
  · obtain rfl := Failure.machine.inj hf
    exact hdocumented l.legible Machine.sizes_lt_writableBound

end Launch

variable {sinks : Log.Sinks} {budget : Budget} {words : List String}

/-- Of the documented faults, those of an unchecked access are not caught. -/
theorem statusOf_eq_ok_iff {checked : Bool} {status : Status} (hstops : status ≠ .running)
    (hdocumented : ∀ fault, status = .faulted fault → fault.Documented checked) :
    statusOf status = .ok (if status = .finished then 0 else 2) ↔
      status ≠ .faulted .noSuchCell ∧ status ≠ .faulted .wideIndex := by
  cases status with
  | running => exact absurd rfl hstops
  | finished => simp [statusOf]
  | faulted fault =>
    obtain ⟨hforeseen, htold⟩ := hdocumented fault rfl
    rcases hforeseen with hruntime | ⟨-, rfl | rfl⟩
    · refine iff_of_true (by simp [statusOf, Fault.isCaught, hruntime, htold]) ⟨?_, ?_⟩
      · rintro ⟨⟩
        cases hruntime
      · rintro ⟨⟩
        cases hruntime
    -- neither of the two is a fault of the kinds that are caught
    · exact iff_of_false nofun fun h => h.1 rfl
    · exact iff_of_false nofun fun h => h.2 rfl

/-- **The exit status covers a run** that comes to an end, with 0 for the sentinel and 2 for a fault,
exactly if the program is valid and the run does not end with an unchecked access that no cell
answers. On a checked machine both are so, for a program with no more instructions than 32-bit
indices. -/
theorem exit_status_covers_iff (l : Launch sinks budget words) (hstops : l.run.status ≠ .running) :
    ((execute sinks budget words).outcome.status =
        .ok (if l.run.status = .finished then 0 else 2) ↔
      l.program.validate = .ok () ∧
        l.run.status ≠ .faulted .noSuchCell ∧ l.run.status ≠ .faulted .wideIndex) ∧
    (l.profile.layout.checked = true → (l.program.size : Int) - 1 ≤ Word.maximum →
      (execute sinks budget words).outcome.status =
        .ok (if l.run.status = .finished then 0 else 2)) := by
  have hcovers : l.program.validate = .ok () →
      ((execute sinks budget words).outcome.status =
          .ok (if l.run.status = .finished then 0 else 2) ↔
        l.run.status ≠ .faulted .noSuchCell ∧ l.run.status ≠ .faulted .wideIndex) := by
    intro hvalid
    have hstatus := l.status_execute
    rw [hvalid] at hstatus
    rw [hstatus]
    exact statusOf_eq_ok_iff hstops fun fault => l.documented_of_faulted hvalid
  refine ⟨⟨fun hstatus => ?_, fun h => (hcovers h.1).mpr h.2⟩, fun hchecked hsize => ?_⟩
  · -- a program that is not valid has a status of its own
    cases hvalid : l.program.validate with
    | ok _ => exact ⟨rfl, (hcovers hvalid).mp hstatus⟩
    | error defect =>
      have hrefused := l.status_execute
      rw [hvalid, hstatus] at hrefused
      split at hrefused
      · cases hrefused
      · cases hrefused
  · have hvalid := validate_of_programOf? l.compiled hsize
    have hruntime : ∀ fault, l.run.status = .faulted fault → fault.isRuntime = true := by
      intro fault hfault
      rcases (l.documented_of_faulted hvalid hfault).1 with hruntime | ⟨hunchecked, -⟩
      · exact hruntime
      · rw [hchecked] at hunchecked
        cases hunchecked
    refine (hcovers hvalid).mpr ⟨fun hfault => ?_, fun hfault => ?_⟩
    · cases hruntime _ hfault
    · cases hruntime _ hfault

/-- A file with a program that divides by zero, and one that reads a cell outside a small block. -/
def faultySinks : Log.Sinks :=
  { time := ""
    tree :=
      { contents :=
          [(⟨.above 0, ["zero.vm"]⟩, "mov eax, 1\ndiv eax, 0\n".toUTF8.toList),
            (⟨.above 0, ["far.vm"]⟩, "mov eax, [99999]\n".toUTF8.toList)] } }

/-- A file of these is run in a small block. -/
def smallLaunch (file : String) (p : Program)
    (hunderstood : readArguments [file, "--profile", "small"] =
      .ok (.runProgram file { profile := some "small" }))
    (hcompiled : programOf? faultySinks.files 1 file #[createdRecord ⟨65536, 16384, false⟩] =
      some p) :
    Launch faultySinks ⟨1, 3⟩ [file, "--profile", "small"] where
  input := file
  options := { profile := some "small" }
  opened := { faultySinks with settings := some (logSettings { profile := some "small" }) }
  profileName := "small"
  profile := ⟨⟨65536, 16384, false⟩, "64 KB block, 16 KB stack, for embedding and tests"⟩
  context :=
    { machine := some (Layout.machine ⟨65536, 16384, false⟩)
      program := some .empty
      monitor := { log := #[createdRecord ⟨65536, 16384, false⟩] } }
  program := p
  understood := hunderstood
  runs := rfl
  logged := rfl
  sized := rfl
  allocated := rfl
  compiled := hcompiled

def zeroProgram : Program :=
  ⟨#[⟨.mov, [.register 0, .immediate 1]⟩, ⟨.div, [.register 0, .immediate 0]⟩, .sentinel], 0,
    .empty, .empty⟩

theorem zero_exit_status :
    ∃ l : Launch faultySinks ⟨1, 3⟩ ["zero.vm", "--profile", "small"],
      l.program = zeroProgram ∧ l.run.status = .faulted .zeroDivisor ∧
      (execute faultySinks ⟨1, 3⟩ ["zero.vm", "--profile", "small"]).outcome.status = .ok 2 := by
  let l := smallLaunch "zero.vm" zeroProgram (by decide +kernel) (by decide +kernel)
  have hstatus : l.run.status = .faulted .zeroDivisor := by decide +kernel
  have hstops : l.run.status ≠ .running := by
    rw [hstatus]
    exact nofun
  refine ⟨l, rfl, hstatus, ?_⟩
  have hcovers := (exit_status_covers_iff l hstops).1
  rw [hstatus] at hcovers
  exact hcovers.mpr ⟨rfl, nofun, nofun⟩

def farProgram : Program := ⟨#[⟨.mov, [.register 0, .cell 99999]⟩, .sentinel], 0, .empty, .empty⟩

/-- The read outside the block ends the run by a fault, and the command without a status. -/
theorem far_read_escapes :
    ∃ l : Launch faultySinks ⟨1, 3⟩ ["far.vm", "--profile", "small"],
      l.program = farProgram ∧ l.run.status = .faulted .noSuchCell ∧
      (execute faultySinks ⟨1, 3⟩ ["far.vm", "--profile", "small"]).outcome.status =
        .error (.failed (.machine .noSuchCell)) := by
  let l := smallLaunch "far.vm" farProgram (by decide +kernel) (by decide +kernel)
  have hstatus : l.run.status = .faulted .noSuchCell := by decide +kernel
  refine ⟨l, rfl, hstatus, ?_⟩
  rw [l.status_execute, hstatus]
  rfl

end CellMachine.CommandLine
