import CellMachine.Text.Column

/-!
# Log records

A record has a severity, the name of the logger it was written to, the site in the program that
wrote it, and a message. Severities are numbers, of which five have names. `Record.line` is the
line of a record in a log file.
-/

namespace CellMachine.Log

/-- How severe a record is. -/
abbrev Level := Int

namespace Level

def debug : Level := 10

def info : Level := 20

def warning : Level := 30

def error : Level := 40

def critical : Level := 50

def name (level : Level) : String :=
  if level = debug then "DEBUG"
  else if level = info then "INFO"
  else if level = warning then "WARNING"
  else if level = error then "ERROR"
  else if level = critical then "CRITICAL"
  else if level = 0 then "NOTSET"
  else s!"Level {level}"

end Level

structure Record where
  level : Level
  logger : String
  /-- The site that wrote the record, as a log file shows it. -/
  site : String
  message : String
  deriving DecidableEq, Repr

/-- The line of a record in a log file. Columns of fixed order are divided by bars; the time comes
first and the message last. -/
def Record.line (time : String) (r : Record) : String :=
  " | ".intercalate [time, Text.padRight 7 (Level.name r.level), r.logger, r.site, r.message] ++
    "\n"

/-! ### The loggers that the library writes to -/

/-- The logger from which all others take their settings. -/
def rootLogger : String := "tinyvm"

def machineLogger : String := "tinyvm.emu"

def blockLogger : String := "tinyvm.mem.memory"

def sourceLogger : String := "tinyvm.source"

def directiveLogger : String := "tinyvm.asm.preprocessor"

/-- Records of at least the given severity. -/
def atLeast (level : Level) (records : Array Record) : Array Record :=
  records.filter fun r => level ≤ r.level

end CellMachine.Log
