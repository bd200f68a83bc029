import CellMachine.Proofs.Acceptance
import CellMachine.Proofs.UnaskableNames

/-!
# Loading a source file

`Context.interpret` reads a source, expands and parses it, and loads the program. Each of these
stages has failures of its own, and they are told from each other in three places. What comes out is
said once (`Interpreted`): the program of the file is loaded, or the failure is reported by the
status, or it escapes. The machine is never touched.

`programOf?` is the program that a file has, without a context. A file that has one is loaded unless
the program is not valid, which takes more instructions than there are 32-bit indices
(`validate_of_programOf?`). A file that has none is reported unless it leads to a name that cannot be
asked for (`exists_interpret_error_iff`). So the status tells of every failure exactly if all names
are usable (`interpret_reports_iff`).
-/

namespace CellMachine

namespace Assembly

variable {files : Files.Live} {base : Option Files.Path}

/-- **A text that is not assembled** is not reported exactly if it leads to a name that cannot be
asked for. -/
theorem assemble_unreported_iff (hnul : files.RefusesNul) {rounds : Nat} {source : String}
    {defines : Table String} {log : Array Log.Record}
    (hstops : ((Expansion.start source defines log).after files base rounds).status ≠ .expanding) :
    (∃ fault, (assemble files base rounds source defines log).1 = .error fault ∧
        (Failure.assembly fault).isReported = false) ↔
      ∃ k < rounds, ((Expansion.start source defines log).after files base k).Balks files base := by
  rw [← Expansion.after_failedUnreported_iff hnul rfl]
  unfold assemble Expansion.FailedUnreported
  dsimp only
  generalize (Expansion.start source defines log).after files base rounds = e at hstops ⊢
  cases hstatus : e.status with
  | expanding => exact absurd hstatus hstops
  | failed fault => simp [Failure.isReported]
  | finished =>
    dsimp only
    -- an expanded text is parsed or its error is reported
    cases (parse (tokenize e.defines (String.ofList e.text)) e.defines).program with
    | error error => simp [Failure.isReported]
    | ok p => simp

/-- A parsed program ends in its sentinel, so none is added when it is loaded. -/
theorem make_of_parse {tokenLines : List (List String)} {defines : Table String} {p : Program}
    (h : (parse tokenLines defines).program = .ok p) :
    Program.make p.instructions p.start p.defines p.labels = p := by
  obtain ⟨_, body, -, -, -, -, rfl⟩ := parse_eq_ok_iff.mp h
  unfold Program.make Program.closed
  dsimp only
  rw [Array.back?_push]
  rfl

end Assembly

namespace Context

open Assembly

variable {files : Files.Live} {rounds : Nat} {filename : String} {c : Context}

/-! ### Interpreting a source file -/

/-- The expansion of a source after some rounds. Names are looked for below the directory of the
source. -/
def expansionAt (files : Files.Live) (source : Files.Source) (log : Array Log.Record) (k : Nat) :
    Expansion :=
  (Expansion.start source.text .empty log).after files (some source.path.parent) k

/-- The program of a source file, if the file is read and its text is assembled. -/
def programOf? (files : Files.Live) (rounds : Nat) (filename : String) (log : Array Log.Record) :
    Option Program :=
  match Files.readSource files filename Files.sourceExtension Files.openAttempts log with
  | (.error _, _) => none
  | (.ok source, log) =>
    (assemble files (some source.path.parent) rounds source.text .empty log).1.toOption

/-- **What becomes of a context** that is given a source file with this program, or with none. The
machine is never touched. -/
inductive Interpreted (c : Context) (program? : Option Program) :
    EStateM.Result Failure Context Nat → Prop
  | loaded {p : Program} {log : Array Log.Record} (hprogram : program? = some p)
      (hvalid : p.validate = .ok ()) :
      Interpreted c program? (.ok Context.loaded { c.withLog log with program := some p })
  | refused {log : Array Log.Record} (h : ∀ p, program? = some p → p.validate ≠ .ok ()) :
      Interpreted c program? (.ok loadFailed (c.withLog log))
  | escaped {failure : Failure} {log : Array Log.Record} (h : program? = none) :
      Interpreted c program? (.error failure (c.withLog log))

/-- Loading a parsed program installs it, or tells what is wrong with it. -/
theorem load_of_parse {tokenLines : List (List String)} {defines : Table String} {p : Program}
    (h : (parse tokenLines defines).program = .ok p) (c : Context) :
    load p c =
      match p.validate with
      | .ok () => .ok () ({ c with program := some p }.log (loadedRecord p))
      | .error defect => .error (.defect defect) c := by
  unfold load
  rw [make_of_parse h]
  cases p.validate with
  | ok _ => rfl
  | error defect => rfl

/-- What becomes of a source that was read, by its assembly and the check of the program. -/
theorem interpret_of_read {source : Files.Source} {log : Array Log.Record}
    (hread : Files.readSource files filename Files.sourceExtension Files.openAttempts
      c.monitor.log = (.ok source, log)) :
    interpret files rounds filename c =
      match assemble files (some source.path.parent) rounds source.text .empty log with
      | (.error fault, log') =>
        if (Failure.assembly fault).isReported then
          .ok loadFailed ((c.withLog log').log (unloadedRecord filename (.assembly fault)))
        else .error (.assembly fault) (c.withLog log')
      | (.ok p, log') =>
        match p.validate with
        | .ok () => .ok loaded ({ c.withLog log' with program := some p }.log (loadedRecord p))
        | .error defect =>
          .ok loadFailed ((c.withLog log').log (unloadedRecord filename (.defect defect))) := by
  -- the source is assembled with the log that reading it has left
  have hlog : (c.withLog log).monitor.log = log := rfl
  unfold interpret loadSource
  rw [hread]
  dsimp only
  rw [hlog]
  cases hassemble : assemble files (some source.path.parent) rounds source.text .empty log with
  | mk answer log' =>
    cases answer with
    | error fault => rfl
    | ok p =>
      obtain ⟨tokenLines, defines, hparse⟩ := exists_parse_of_assemble hassemble
      dsimp only
      rw [load_of_parse hparse]
      cases p.validate with
      | ok _ => rfl
      | error defect => rfl

/-- **Interpreting** a source file loads the program of the file, if there is one and it is valid. -/
theorem interpret_interpreted (files : Files.Live) (rounds : Nat) (filename : String)
    (c : Context) :
    Interpreted c (programOf? files rounds filename c.monitor.log)
      (interpret files rounds filename c) := by
  unfold programOf?
  cases hread : Files.readSource files filename Files.sourceExtension Files.openAttempts
      c.monitor.log with
  | mk answer log =>
    cases answer with
    | error fault =>
      unfold interpret
      rw [hread]
      cases fault with
      | nulCharacter => exact .escaped rfl
      | unreadable filename cause => exact .refused nofun
    | ok source =>
      rw [interpret_of_read hread]
      dsimp only
      cases assemble files (some source.path.parent) rounds source.text .empty log with
      | mk answer log' =>
        cases answer with
        | error fault =>
          dsimp only
          split
          · exact .refused nofun
          · exact .escaped rfl
        | ok p =>
          dsimp only
          cases hvalid : p.validate with
          | ok _ => exact .loaded rfl hvalid
          | error defect =>
            -- a program that is not valid is reported as well
            refine .refused fun p' hp' => ?_
            obtain rfl := Option.some.inj hp'
            rw [hvalid]
            exact nofun

/-- **All names can be asked for**: that of the source file, and those that the rounds of its
expansion include. -/
structure UsableNames (files : Files.Live) (rounds : Nat) (filename : String)
    (log : Array Log.Record) : Prop where
  own : Files.nul ∉ filename.toList
  included : ∀ source log',
    Files.readSource files filename Files.sourceExtension Files.openAttempts log =
        (.ok source, log') →
      ∀ k < rounds, ¬ (expansionAt files source log' k).Balks files (some source.path.parent)

/-- The expansion of a source file comes to an end in the given rounds. -/
def Stops (files : Files.Live) (rounds : Nat) (filename : String) (log : Array Log.Record) : Prop :=
  ∀ source log',
    Files.readSource files filename Files.sourceExtension Files.openAttempts log =
        (.ok source, log') →
      (expansionAt files source log' rounds).status ≠ .expanding

section Read

variable {source : Files.Source} {log log' : Array Log.Record}

theorem stops_of_read
    (hread : Files.readSource files filename Files.sourceExtension Files.openAttempts log =
      (.ok source, log'))
    (h : (expansionAt files source log' rounds).status ≠ .expanding) :
    Stops files rounds filename log := by
  intro source' log'' hread'
  rw [hread] at hread'
  obtain ⟨hsource, rfl⟩ := Prod.mk.inj hread'
  obtain rfl := Except.ok.inj hsource
  exact h

theorem usableNames_of_read (hown : Files.nul ∉ filename.toList)
    (hread : Files.readSource files filename Files.sourceExtension Files.openAttempts log =
      (.ok source, log'))
    (h : ∀ k < rounds, ¬ (expansionAt files source log' k).Balks files (some source.path.parent)) :
    UsableNames files rounds filename log := by
  refine ⟨hown, fun source' log'' hread' => ?_⟩
  rw [hread] at hread'
  obtain ⟨hsource, rfl⟩ := Prod.mk.inj hread'
  obtain rfl := Except.ok.inj hsource
  exact h

end Read

/-- A source that was read fails without a status exactly if its text is not reported. -/
theorem exists_interpret_error_iff_of_read {source : Files.Source} {log : Array Log.Record}
    (hread : Files.readSource files filename Files.sourceExtension Files.openAttempts
      c.monitor.log = (.ok source, log)) :
    (∃ failure c', interpret files rounds filename c = .error failure c') ↔
      ∃ fault, (assemble files (some source.path.parent) rounds source.text .empty log).1 =
          .error fault ∧
        (Failure.assembly fault).isReported = false := by
  rw [interpret_of_read hread]
  cases assemble files (some source.path.parent) rounds source.text .empty log with
  | mk answer log' =>
    cases answer with
    | error fault =>
      dsimp only
      by_cases hreported : (Failure.assembly fault).isReported = true
      · simp [hreported]
      · simp [hreported]
    | ok p =>
      dsimp only
      cases p.validate with
      | ok _ => simp
      | error defect => simp

/-- **Interpreting fails without a status** exactly if some name cannot be asked for. -/
theorem exists_interpret_error_iff (hnul : files.RefusesNul)
    (hstops : Stops files rounds filename c.monitor.log) :
    (∃ failure c', interpret files rounds filename c = .error failure c') ↔
      ¬ UsableNames files rounds filename c.monitor.log := by
  have hown := @Files.readSource_eq_nulCharacter_iff files filename hnul c.monitor.log
  cases hread : Files.readSource files filename Files.sourceExtension Files.openAttempts
      c.monitor.log with
  | mk answer log =>
    rw [hread] at hown
    cases answer with
    | error fault =>
      unfold interpret
      rw [hread]
      cases fault with
      | nulCharacter =>
        -- the name of the file itself is the one that cannot be asked for
        exact iff_of_true ⟨_, _, rfl⟩ fun husable => husable.own (hown.mp rfl)
      | unreadable filename cause =>
        -- a file that is not read includes nothing
        refine iff_of_false ?_ (not_not_intro ⟨?_, ?_⟩)
        · rintro ⟨failure, c', h⟩
          cases h
        · intro hmem
          cases hown.mpr hmem
        · intro source log' h
          rw [hread] at h
          cases h
    | ok source =>
      rw [exists_interpret_error_iff_of_read hread,
        assemble_unreported_iff hnul (hstops source log hread)]
      constructor
      · rintro ⟨k, hk, hbalks⟩ husable
        exact husable.included source log hread k hk hbalks
      · intro hnot
        by_contra hnone
        have hplain : Files.nul ∉ filename.toList := by
          intro hmem
          cases hown.mpr hmem
        exact hnot (usableNames_of_read hplain hread fun k hk hbalks => hnone ⟨k, hk, hbalks⟩)

/-- What is promised of a source file: its program is loaded, or the program stays and the status
tells of the failure. The machine stays in both cases. -/
structure Settled (c : Context) (program? : Option Program) (status : Nat) (c' : Context) :
    Prop where
  machine : c'.machine = c.machine
  success : ∀ p, program? = some p → status = loaded ∧ c'.program = some p
  failure : program? = none → status = loadFailed ∧ c'.program = c.program

/-- The program of a source file was parsed. -/
theorem exists_parse_of_programOf? {log : Array Log.Record} {p : Program}
    (h : programOf? files rounds filename log = some p) :
    ∃ tokenLines defines, (Assembly.parse tokenLines defines).program = .ok p := by
  unfold programOf? at h
  split at h
  · cases h
  · next source log' hread =>
    cases hassemble : assemble files (some source.path.parent) rounds source.text .empty log' with
    | mk answer log'' =>
      rw [hassemble] at h
      cases answer with
      | error fault => cases h
      | ok p' =>
        obtain rfl := Option.some.inj h
        exact exists_parse_of_assemble hassemble

/-- The program of a source file is valid, if it has no more instructions than 32-bit indices. -/
theorem validate_of_programOf? {log : Array Log.Record} {p : Program}
    (h : programOf? files rounds filename log = some p)
    (hsize : (p.size : Int) - 1 ≤ Word.maximum) : p.validate = .ok () := by
  obtain ⟨tokenLines, defines, hparse⟩ := exists_parse_of_programOf? h
  have hlines := size_of_parse hparse
  exact (assembled_of_parse (by omega) hparse).validate

/-- **Every failure is reported by the status**, exactly if every name on the way can be asked for
and the program of the file is valid, which it is if it has no more instructions than 32-bit
indices. A failure without a status still leaves the machine and the program. The file systems are
those in which every file may be read: a path is missing, leads through a file, is a directory, is
too long or holds a NUL, and there are no permissions (`Files.OpenFault`). -/
theorem interpret_reports_iff (hnul : files.RefusesNul)
    (hstops : Stops files rounds filename c.monitor.log) :
    ((∃ status c', interpret files rounds filename c = .ok status c' ∧
        Settled c (programOf? files rounds filename c.monitor.log) status c') ↔
      UsableNames files rounds filename c.monitor.log ∧
        ∀ p, programOf? files rounds filename c.monitor.log = some p → p.validate = .ok ()) ∧
    (∀ p, programOf? files rounds filename c.monitor.log = some p →
      (p.size : Int) - 1 ≤ Word.maximum → p.validate = .ok ()) ∧
    (∀ failure c', interpret files rounds filename c = .error failure c' →
      c'.machine = c.machine ∧ c'.program = c.program) := by
  have hescapes := exists_interpret_error_iff hnul hstops
  have hcases := interpret_interpreted files rounds filename c
  refine ⟨⟨?_, ?_⟩, fun p hp hsize => validate_of_programOf? hp hsize, ?_⟩
  · rintro ⟨status, c', hresult, hsettled⟩
    rw [hresult] at hescapes hcases
    refine ⟨?_, fun p hp => ?_⟩
    · by_contra hunusable
      obtain ⟨failure, c'', h⟩ := hescapes.mpr hunusable
      cases h
    · -- a program that is refused has the status of a failure
      cases hcases with
      | loaded hprogram hvalid =>
        rw [hp] at hprogram
        obtain rfl := Option.some.inj hprogram
        exact hvalid
      | refused h => exact absurd (hsettled.success p hp).1 (by decide)
  · rintro ⟨husable, hvalid⟩
    -- of the three outcomes, the one that escapes is ruled out by the names
    generalize interpret files rounds filename c = result at hcases hescapes
    cases hcases with
    | @loaded p log hprogram _ =>
      refine ⟨_, _, rfl, rfl, fun p' hp' => ?_, fun hnone => ?_⟩
      · rw [hprogram] at hp'
        obtain rfl := Option.some.inj hp'
        exact ⟨rfl, rfl⟩
      · rw [hprogram] at hnone
        cases hnone
    | refused h =>
      refine ⟨_, _, rfl, rfl, fun p hp => ?_, fun _ => ⟨rfl, rfl⟩⟩
      exact absurd (hvalid p hp) (h p hp)
    | escaped h => exact absurd husable (hescapes.mp ⟨_, _, rfl⟩)
  · intro failure c' hresult
    rw [hresult] at hcases
    cases hcases with
    | escaped h => exact ⟨rfl, rfl⟩

/-- All that a fresh context has logged is that it was created. -/
theorem log_of_create {l : Layout} (h : create l = .ok c) : c.monitor.log = #[createdRecord l] := by
  unfold create at h
  split at h
  · cases h
  · split at h
    · cases h
    · cases h
    · obtain rfl := Except.ok.inj h
      rfl

/-- A file that is found by its extension, and one that it includes and that defines a name. -/
def libraryFiles : Files.Live :=
  Log.Sinks.files
    { time := ""
      tree :=
        { contents :=
            [(⟨.above 0, ["main.vm"]⟩, "%include lib/n\nmov eax, n\n".toUTF8.toList),
              (⟨.above 0, ["lib", "n"]⟩, "%define n 3\nnop\n".toUTF8.toList)] } }

def librarySource : Files.Source := ⟨"%include lib/n\nmov eax, n\n", ⟨"", ["main.vm"]⟩⟩

def libraryProgram : Program :=
  ⟨#[⟨.nop, []⟩, ⟨.mov, [.register 0, .immediate 3]⟩, .sentinel], 0, ⟨[("n", "3")]⟩, .empty⟩

theorem library_interpreted :
    ∃ c, create ⟨64, 16, true⟩ = .ok c ∧ libraryFiles.RefusesNul ∧
      Stops libraryFiles 3 "main" c.monitor.log ∧ UsableNames libraryFiles 3 "main" c.monitor.log ∧
      ∃ status c', interpret libraryFiles 3 "main" c = .ok status c' ∧
        Settled c (some libraryProgram) status c' := by
  obtain ⟨c, hc⟩ : ∃ c, create ⟨64, 16, true⟩ = .ok c := ⟨_, rfl⟩
  have hlog := log_of_create hc
  have hnul : libraryFiles.RefusesNul := Log.Sinks.files_refusesNul _
  have hread : Files.readSource libraryFiles "main" Files.sourceExtension Files.openAttempts
      c.monitor.log = (.ok librarySource, c.monitor.log) := by
    rw [hlog]
    decide +kernel
  have hstops : Stops libraryFiles 3 "main" c.monitor.log := by
    refine stops_of_read hread ?_
    rw [hlog]
    decide +kernel
  have husable : UsableNames libraryFiles 3 "main" c.monitor.log := by
    refine usableNames_of_read (by decide) hread ?_
    rw [hlog]
    decide +kernel
  have hprogram : programOf? libraryFiles 3 "main" c.monitor.log = some libraryProgram := by
    rw [hlog]
    decide +kernel
  refine ⟨c, hc, hnul, hstops, husable, ?_⟩
  have hreports := (interpret_reports_iff hnul hstops).1
  rw [hprogram] at hreports
  refine hreports.mpr ⟨husable, fun p hp => ?_⟩
  obtain rfl := Option.some.inj hp
  rfl

/-- A file that includes a name with a NUL character. -/
def nulIncludeFiles : Files.Live :=
  Log.Sinks.files
    { time := ""
      tree := { contents := [(⟨.above 0, ["main.vm"]⟩, "%include a\x00b".toUTF8.toList)] } }

/-- Neither that file nor a file name with a NUL character is reported by a status. -/
theorem nul_names_escape :
    ∃ c, create ⟨64, 16, true⟩ = .ok c ∧ nulIncludeFiles.RefusesNul ∧
      (Stops nulIncludeFiles 1 "main.vm" c.monitor.log ∧
        ∃ failure c', interpret nulIncludeFiles 1 "main.vm" c = .error failure c') ∧
      Stops nulIncludeFiles 1 "a\x00b" c.monitor.log ∧
        ∃ failure c', interpret nulIncludeFiles 1 "a\x00b" c = .error failure c' := by
  obtain ⟨c, hc⟩ : ∃ c, create ⟨64, 16, true⟩ = .ok c := ⟨_, rfl⟩
  have hlog := log_of_create hc
  have hnul : nulIncludeFiles.RefusesNul := Log.Sinks.files_refusesNul _
  refine ⟨c, hc, hnul, ?_, ?_⟩
  · have hread : Files.readSource nulIncludeFiles "main.vm" Files.sourceExtension
        Files.openAttempts c.monitor.log =
          (.ok ⟨"%include a\x00b", ⟨"", ["main.vm"]⟩⟩, c.monitor.log) := by
      rw [hlog]
      decide +kernel
    have hstops : Stops nulIncludeFiles 1 "main.vm" c.monitor.log := by
      refine stops_of_read hread ?_
      rw [hlog]
      decide +kernel
    refine ⟨hstops, (exists_interpret_error_iff hnul hstops).mpr fun husable => ?_⟩
    -- the first round already asks for the name
    have hfirst := husable.included _ _ hread 0 (by decide)
    rw [hlog] at hfirst
    exact hfirst (by decide +kernel)
  · have hread : Files.readSource nulIncludeFiles "a\x00b" Files.sourceExtension
        Files.openAttempts c.monitor.log = (.error .nulCharacter, c.monitor.log) := by
      rw [hlog]
      decide +kernel
    have hstops : Stops nulIncludeFiles 1 "a\x00b" c.monitor.log := by
      intro source log h
      rw [hread] at h
      cases h
    exact ⟨hstops, (exists_interpret_error_iff hnul hstops).mpr fun husable =>
      husable.own (by decide)⟩

end Context

end CellMachine
