import CellMachine.Layout
import CellMachine.Text.Quoted

/-!
# Options of the command line

The words of a command line are options, their values, and the name of the program to run. Every
word is first told apart: after the word `--` none is an option; before it a word that begins with
a dash is one, unless it is a dash alone, looks like a negative number, or holds a space. A long
option may be cut short as long as only one option begins that way; its value may follow after
`=`. Flags of one letter may be written together, and nothing else may follow them.

The word `--` is dropped from the values of an option and from the input. An option whose value
was `--` is therefore left without one.

The options are then taken from left to right. The first usage fault is reported; a word that
nothing takes is reported at the end.
-/

namespace CellMachine.CommandLine

/-- What an option is for. -/
inductive Key where
  | help | profile | memorySize | stackSize | checked | trace | dumpRegs | tokens | listing
  | verbose | logFile | version
  deriving DecidableEq, Repr

namespace Key

/-- The spellings of an option. -/
def names : Key → List String
  | .help => ["-h", "--help"]
  | .profile => ["--profile"]
  | .memorySize => ["--memory-size"]
  | .stackSize => ["--stack-size"]
  | .checked => ["--checked"]
  | .trace => ["--trace"]
  | .dumpRegs => ["--dump-regs"]
  | .tokens => ["--tokens"]
  | .listing => ["--listing"]
  | .verbose => ["--verbose", "-v"]
  | .logFile => ["--log-file"]
  | .version => ["--version"]

def all : List Key :=
  [.help, .profile, .memorySize, .stackSize, .checked, .trace, .dumpRegs, .tokens, .listing,
   .verbose, .logFile, .version]

/-- The option takes a value. -/
def takesValue : Key → Bool
  | .profile | .memorySize | .stackSize | .logFile => true
  | _ => false

/-- The option as faults name it. -/
def label (key : Key) : String := "/".intercalate key.names

/-- Every spelling with its option. -/
def spellings : List (String × Key) := all.flatMap fun key => key.names.map (·, key)

end Key

/-- What is wrong with a command line. -/
inductive UsageFault where
  | ambiguous (word : String) (matching : List String)
  | ignoredValue (key : Key) (value : String)
  | missingValue (key : Key)
  | unknownProfile (name : String)
  | missingInput
  | unrecognized (words : List String)
  deriving DecidableEq, Repr

def UsageFault.message : UsageFault → String
  | .ambiguous word matching =>
    "ambiguous option: " ++ word ++ " could match " ++ ", ".intercalate matching
  | .ignoredValue key value =>
    "argument " ++ key.label ++ ": ignored explicit argument " ++ Text.quoted value
  | .missingValue key => "argument " ++ key.label ++ ": expected one argument"
  | .unknownProfile name =>
    "argument " ++ Key.profile.label ++ ": invalid choice: " ++ Text.quoted name ++
      " (choose from " ++ ", ".intercalate (Profile.names.map Text.quoted) ++ ")"
  | .missingInput => "the following arguments are required: input"
  | .unrecognized words => "unrecognized arguments: " ++ " ".intercalate words

/-! ### Telling words apart -/

/-- What a word is. -/
inductive Role where
  | plain
  /-- The word `--` after which no word is an option. -/
  | endOfOptions
  /-- An option by one of its spellings, with what the same word holds besides. -/
  | option (key : Key) (spelling : String) (attached : Option String)
  | unknownOption
  deriving DecidableEq, Repr

/-- The text before the first `=` and the text after it. -/
def splitEquals (word : String) : Option (String × String) :=
  match word.toList.dropWhile (· != '=') with
  | [] => none
  | _ :: value => some (String.ofList (word.toList.takeWhile (· != '=')), String.ofList value)

def isDecimal (c : Char) : Bool := (Text.decimalValue? c).isSome

/-- The characters without a line feed at the end. -/
def dropLineEnd (cs : List Char) : List Char := if cs.getLast? = some '\n' then cs.dropLast else cs

/-- A word looks like a negative number, possibly with a line feed after it. -/
def isNegativeNumber (word : String) : Bool :=
  match dropLineEnd word.toList with
  | '-' :: digits =>
    match digits.dropWhile isDecimal with
    | [] => !digits.isEmpty
    | '.' :: fraction => !fraction.isEmpty && fraction.all isDecimal
    | _ => false
  | _ => false

/-- The options that a word can stand for when no spelling is equal to it. -/
def candidates (word : String) : List (Key × String × Option String) :=
  match word.toList with
  | '-' :: '-' :: _ =>
    let (front, value) : String × Option String := match splitEquals word with
      | some (front, value) => (front, some value)
      | none => (word, none)
    (Key.spellings.filter fun (spelling, _) => front.toList.isPrefixOf spelling.toList).map
      fun (spelling, key) => (key, spelling, value)
  | cs =>
    Key.spellings.filterMap fun (spelling, key) =>
      if spelling.toList = cs.take 2 then some (key, spelling, some (String.ofList (cs.drop 2)))
      else if cs.isPrefixOf spelling.toList then some (key, spelling, none)
      else none

/-- The role of a word that no exact spelling explains. -/
def inexactRole (word : String) : Except UsageFault Role :=
  match candidates word with
  | [(key, spelling, value)] => .ok (.option key spelling value)
  | [] =>
    if isNegativeNumber word || word.toList.contains ' ' then .ok .plain else .ok .unknownOption
  | several => .error (.ambiguous word (several.map fun (_, spelling, _) => spelling))

/-- The role of a word before the end of the options. -/
def roleOf (word : String) : Except UsageFault Role :=
  match word.toList with
  | '-' :: _ :: _ =>
    match Key.spellings.lookup word with
    | some key => .ok (.option key word none)
    | none =>
      match splitEquals word with
      | none => inexactRole word
      | some (spelling, value) =>
        match Key.spellings.lookup spelling with
        | some key => .ok (.option key spelling (some value))
        | none => inexactRole word
  | _ => .ok .plain

/-- The words with their roles. -/
def classify : List String → Except UsageFault (List (String × Role))
  | [] => .ok []
  | word :: rest =>
    if word = "--" then .ok ((word, .endOfOptions) :: rest.map (·, .plain))
    else match roleOf word with
      | .error fault => .error fault
      | .ok role => (classify rest).map ((word, role) :: ·)

/-! ### Taking options -/

structure Options where
  /-- The name of the profile; there is none if the option was left without a value. -/
  profile : Option String := some "default"
  memorySize : Option String := none
  stackSize : Option String := none
  checked : Bool := false
  trace : Bool := false
  dumpRegs : Bool := false
  tokens : Bool := false
  listing : Bool := false
  verbose : Bool := false
  logFile : Option String := none
  deriving DecidableEq, Repr

/-- What a command line asks for. -/
inductive Request where
  | showHelp
  | showVersion
  | runProgram (input : String) (options : Options)
  deriving DecidableEq, Repr

/-- A command line as far as it was taken. -/
structure Progress where
  options : Options := {}
  input : Option String := none
  /-- Words that nothing took. -/
  leftOver : List String := []

/-- Why taking words stops early. -/
inductive Stop where
  | fault (fault : UsageFault)
  | help
  | version

/-- Take an option that has no value. -/
def takeFlag (o : Options) : Key → Except Stop Options
  | .help => .error .help
  | .version => .error .version
  | .checked => .ok { o with checked := true }
  | .trace => .ok { o with trace := true }
  | .dumpRegs => .ok { o with dumpRegs := true }
  | .tokens => .ok { o with tokens := true }
  | .listing => .ok { o with listing := true }
  | .verbose => .ok { o with verbose := true }
  | _ => .ok o

/-- The value that a word gives to an option: the word `--` is dropped and gives none. -/
def valueOf? (word : String) : Option String := if word = "--" then none else some word

/-- The name is that of a profile, or there is none. -/
def checkProfile : Option String → Except Stop (Option String)
  | none => .ok none
  | some name =>
    if name ∈ Profile.names then .ok (some name) else .error (.fault (.unknownProfile name))

/-- Take an option with its value. -/
def takeValue (o : Options) (key : Key) (value : Option String) : Except Stop Options :=
  match key with
  | .profile => (checkProfile value).map fun profile => { o with profile }
  | .memorySize => .ok { o with memorySize := value }
  | .stackSize => .ok { o with stackSize := value }
  | .logFile => .ok { o with logFile := value }
  | _ => .ok o

/-- The flags written together after a flag of one letter. What is no flag is an unwanted value of
the flag before it. -/
def bundledFlags (key : Key) : List Char → Except UsageFault (List Key)
  | [] => .ok []
  | c :: rest =>
    match Key.spellings.lookup (String.ofList ['-', c]) with
    | some next => (bundledFlags next rest).map (next :: ·)
    | none => .error (.ignoredValue key (String.ofList (c :: rest)))

/-- A spelling has two dashes. -/
def isLong (spelling : String) : Bool :=
  match spelling.toList with
  | '-' :: '-' :: _ => true
  | _ => false

/-- The flags of a word that holds more than the spelling of a flag. Only a flag of one letter may
be followed by something, which must be further flags. -/
def flagsOf (key : Key) (spelling attached : String) : Except UsageFault (List Key) :=
  if isLong spelling ∨ attached.isEmpty then .error (.ignoredValue key attached)
  else (bundledFlags key attached.toList).map (key :: ·)

/-- Take a flag and what its word holds besides. -/
def takeFlags (o : Options) (key : Key) (spelling attached : String) : Except Stop Options :=
  match flagsOf key spelling attached with
  | .error fault => .error (.fault fault)
  | .ok keys => keys.foldlM takeFlag o

/-- Take an option and what its word holds besides. -/
def takeAttached (o : Options) (key : Key) (spelling attached : String) : Except Stop Options :=
  if key.takesValue then takeValue o key (valueOf? attached) else takeFlags o key spelling attached

/-- Take the words from left to right. The first plain word is the input; the end of the options
goes with it when it stands right before or after it. -/
def take (p : Progress) : List (String × Role) → Except Stop Progress
  | [] => .ok p
  | (word, .unknownOption) :: rest => take { p with leftOver := p.leftOver ++ [word] } rest
  | (_, .option key spelling (some attached)) :: rest =>
    match takeAttached p.options key spelling attached with
    | .error stop => .error stop
    | .ok options => take { p with options } rest
  | (_, .option key _ none) :: rest =>
    if key.takesValue then
      match rest with
      | (value, .plain) :: rest =>
        match takeValue p.options key (some value) with
        | .error stop => .error stop
        | .ok options => take { p with options } rest
      | _ => .error (.fault (.missingValue key))
    else match takeFlag p.options key with
      | .error stop => .error stop
      | .ok options => take { p with options } rest
  | (word, .plain) :: (mark, .endOfOptions) :: rest =>
    match p.input with
    | none => take { p with input := some word } rest
    | some _ => take { p with leftOver := p.leftOver ++ [word, mark] } rest
  | (word, .plain) :: rest =>
    match p.input with
    | none => take { p with input := some word } rest
    | some _ => take { p with leftOver := p.leftOver ++ [word] } rest
  | (mark, .endOfOptions) :: rest =>
    match p.input with
    | none => take p rest
    | some _ => take { p with leftOver := p.leftOver ++ [mark] } rest

/-- What the words of a command line ask for. -/
def readArguments (words : List String) : Except UsageFault Request :=
  match classify words with
  | .error fault => .error fault
  | .ok roles =>
    match take {} roles with
    | .error .help => .ok .showHelp
    | .error .version => .ok .showVersion
    | .error (.fault fault) => .error fault
    | .ok p =>
      match p.input with
      | none => .error .missingInput
      | some input =>
        if p.leftOver.isEmpty then .ok (.runProgram input p.options)
        else .error (.unrecognized p.leftOver)

end CellMachine.CommandLine
