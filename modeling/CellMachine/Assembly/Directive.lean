import CellMachine.Files.Basic
import CellMachine.Log
import CellMachine.Table
import CellMachine.Text.Blank
import CellMachine.Text.Split

/-!
# Directives

Two directives take the rest of their line: `%include` is replaced by the text of a file, and
`%define` leaves a bare line feed and records a name with its value. The first `%include` of a
text is replaced, then its first `%define`, and this is repeated until a round finds neither, so
that included text may hold directives too. A directive need not stand at the start of its line;
what stands before it stays.

`Expansion.advance` is one round, and `Expansion.after` the expansion after a number of them. An
expansion that has stopped stays as it is; one that goes on for ever includes itself.
-/

namespace CellMachine.Assembly

/-- What is wrong with a directive. -/
inductive DirectiveFault where
  | failedInclude (name : String) (cause : Files.ReadFault)
  | duplicateDefine (key : String) (old new : String)
  | emptyDefine
  | defineWithoutValue (line : String)
  /-- The name to include cannot be asked for at all. -/
  | unusableName (path : Files.Path) (cause : Files.OpenFault)
  deriving DecidableEq, Repr

namespace DirectiveFault

/-- The kind of fault in words. -/
def kind : DirectiveFault → String
  | .failedInclude _ _ => "failed include"
  | .duplicateDefine _ _ _ => "duplicate define"
  | .emptyDefine => "empty define"
  | .defineWithoutValue _ => "define without value"
  | .unusableName _ _ => "unusable name"

/-- What the fault is about; empty if there is nothing to say. -/
def detail : DirectiveFault → String
  | .failedInclude name cause => name ++ ": " ++ cause.message
  | .duplicateDefine key old new =>
    key ++ ": already " ++ Text.quoted old ++ ", redefined as " ++ Text.quoted new
  | .emptyDefine => ""
  | .defineWithoutValue line => line
  | .unusableName path cause => cause.message path

def message (fault : DirectiveFault) : String :=
  match fault with
  | .unusableName path cause => cause.message path
  | fault =>
    "Preprocessor error: " ++ fault.kind ++
      (if fault.detail.isEmpty then "" else " (" ++ fault.detail ++ ")")

/-- The fault is one of the source text, and not of a name that cannot be asked for. -/
def isReported : DirectiveFault → Bool
  | .unusableName _ _ => false
  | _ => true

end DirectiveFault

/-! ### One directive -/

def includeMark : List Char := "%include".toList

def defineMark : List Char := "%define".toList

/-- A text cut at a directive: what stands before it, in reverse, its argument, and what follows
its line. -/
structure Occurrence where
  passed : List Char
  argument : String
  rest : List Char

/-- The first occurrence of a directive in a text. -/
def firstOccurrence? (mark text : List Char) : Option Occurrence :=
  (Text.cutAt? mark text).map fun (passed, tail) =>
    { passed
      argument := String.ofList (Text.trimChars (tail.takeWhile (· != '\n')))
      rest := (tail.dropWhile (· != '\n')).drop 1 }

/-- The text with something else in place of the directive and its line. -/
def Occurrence.replace (o : Occurrence) (replacement : List Char) : List Char :=
  o.passed.reverseAux (replacement ++ o.rest)

/-- The key and the value of a definition. The first space ends the key. -/
def splitDefinition (line : String) : Except DirectiveFault (String × String) :=
  if line.isEmpty then .error .emptyDefine
  else match line.toList.dropWhile (· != ' ') with
    | [] => .error (.defineWithoutValue line)
    | _ :: value =>
      .ok (String.ofList (line.toList.takeWhile (· != ' ')),
        String.ofList (Text.trimChars value))

/-- The table with a definition added. -/
def addDefinition (defines : Table String) (line : String) :
    Except DirectiveFault (Table String) :=
  match splitDefinition line with
  | .error fault => .error fault
  | .ok (key, value) =>
    match defines.find? key with
    | some old => .error (.duplicateDefine key old value)
    | none => .ok (defines.insert key value)

/-- The path that a name to include stands for: below the base directory if something is there,
else as it is. -/
def resolveInclude (files : Files) (base : Option Files.Path) (name : String) :
    Except DirectiveFault Files.Path :=
  let path := Files.Path.ofText name
  match base with
  | none => .ok path
  | some base =>
    if path.isAbsolute then .ok path
    else
      let candidate := base.under path
      match files.isPresent candidate with
      | .error fault => .error (.unusableName candidate fault)
      | .ok true => .ok candidate
      | .ok false => .ok path

/-- The text that a name to include stands for, and the path it was read from. -/
def includeText (files : Files) (base : Option Files.Path) (name : String) :
    Except DirectiveFault (List Char × Files.Path) :=
  match resolveInclude files base name with
  | .error fault => .error fault
  | .ok path =>
    match files.readText path with
    | .ok text => .ok (text, path)
    | .error (.unopened path .nulCharacter) => .error (.unusableName path .nulCharacter)
    | .error cause => .error (.failedInclude name cause)

/-! ### The expansion -/

/-- Whether an expansion goes on, and how it ended. -/
inductive ExpansionStatus where
  | expanding
  | finished
  | failed (fault : DirectiveFault)
  deriving DecidableEq, Repr

structure Expansion where
  text : List Char
  defines : Table String
  /-- What was logged, before the expansion and by it. -/
  log : Array Log.Record := #[]
  status : ExpansionStatus := .expanding

namespace Expansion

def includeRecord (path : Files.Path) (text : List Char) : Log.Record :=
  ⟨Log.Level.debug, Log.directiveLogger, "_include:89",
    s!"included {path.text} ({text.length} bytes)"⟩

/-- Replace the first `%include`. The result tells whether there was one. -/
def replaceInclude (files : Files.Live) (base : Option Files.Path) (e : Expansion) :
    Expansion × Bool :=
  match firstOccurrence? includeMark e.text with
  | none => (e, false)
  | some o =>
    match includeText (files e.log) base o.argument with
    | .error fault => ({ e with status := .failed fault }, true)
    | .ok (text, path) =>
      ({ e with text := o.replace text, log := e.log.push (includeRecord path text) }, true)

/-- Replace the first `%define`. The result tells whether there was one. -/
def replaceDefine (e : Expansion) : Expansion × Bool :=
  match firstOccurrence? defineMark e.text with
  | none => (e, false)
  | some o =>
    match addDefinition e.defines o.argument with
    | .error fault => ({ e with status := .failed fault }, true)
    | .ok defines => ({ e with text := o.replace ['\n'], defines }, true)

/-- One round: the first `%include`, then the first `%define`. -/
def advance (files : Files.Live) (base : Option Files.Path) (e : Expansion) : Expansion :=
  match e.status with
  | .expanding =>
    match e.replaceInclude files base with
    | (e, included) =>
      match e.status with
      | .expanding =>
        match e.replaceDefine with
        | (e, true) => e
        | (e, false) => if included then e else { e with status := .finished }
      | _ => e
  | _ => e

/-- The expansion after a number of rounds. -/
def after (files : Files.Live) (base : Option Files.Path) : Nat → Expansion → Expansion
  | 0, e => e
  | n + 1, e =>
    match e.status with
    | .expanding => after files base n (e.advance files base)
    | _ => e

/-- The expansion of a text before its first round, with the definitions it starts from and what
was logged before it. -/
def start (text : String) (defines : Table String) (log : Array Log.Record) : Expansion :=
  { text := text.toList, defines, log }

end Expansion

end CellMachine.Assembly
